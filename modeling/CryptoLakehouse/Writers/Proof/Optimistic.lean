import CryptoLakehouse.Lib.Amortized
import CryptoLakehouse.Writers.Proof.Ledger

/-!
# A concurrent committer costs retries

A catalog refuses a commit when the table has moved on since the metadata that the writer builds on
(`Served`). Then the loop of `commit` reloads and tries again, so every attempt but the first is paid
by a commit of the other writer (`credit`), and only the batcher's last attempt leaves the old metadata
to its next batch.

* `answered` — what a turn does under such a catalog.
* `conflicts_paid` — in whole runs, the attempts of the batches that are given up are paid by the
  other's commits.
-/

namespace Writers

open Arrow Trades Sink Query Fallible

/-! ## The catalog's side -/

/-- The writer's metadata is older than the table. -/
def behind (lake : Lake) (wr : Writer) : Nat :=
  if wr.sink.table.snapshots = lake.table.snapshots then 0 else 1

/-- The answers of a catalog that is there: a commit takes effect, or the writer is behind. -/
def Served (lake : Lake) (wr : Writer) : CommitReply → Reply → Prop
  | .applied, _ => True
  | .refused _, .ok () => behind lake wr = 1
  | _, _ => False

/-- Every request of the run meets such a catalog. -/
def Optimistic (s : State) : Action → Prop
  | .commit reply reloaded => Served s.lake s.batcher reply reloaded
  | .commitChunk reply reloaded => ∀ b, s.backfill = some b → Served s.lake b.writer reply reloaded
  | _ => True

def applies : CommitReply → Nat
  | .applied => 1
  | _ => 0

/-- The commits of each writer. -/
def Action.batcherCommits : Action → Nat
  | .commit reply _ => applies reply
  | _ => 0

def Action.backfillCommits : Action → Nat
  | .commitChunk reply _ => applies reply
  | _ => 0

/-! ## The writers' side -/

/-- The attempts of one write. -/
def Writer.attempts (wr : Writer) : Nat := max wr.sink.cfg.commitRetries 1

/-- The last attempt is refused. -/
def Writer.givesUp (wr : Writer) : CommitReply → Bool
  | .refused _ => wr.pending.any (·.left == 0)
  | _ => false

/-- The attempts, but for the first, of a batch that the batcher gives up. -/
def State.batcherWaste (s : State) : Action → Nat
  | .commit reply _ => if s.batcher.givesUp reply then s.batcher.attempts - 1 else 0
  | _ => 0

/-- The attempts of a chunk that the backfill gives up, and dies. -/
def State.backfillWaste (s : State) : Action → Nat
  | .commitChunk reply _ =>
    s.backfill.elim 0 fun b => if b.writer.givesUp reply then b.writer.attempts else 0
  | _ => 0

/-- What the other's commits have paid and no attempt has used up. -/
def credit (lake : Lake) (wr : Writer) : Nat :=
  behind lake wr + wr.pending.elim 0 (·.attempt - 1)

/-- What is on its way has been counted right, and is not in the table. -/
structure Trying (lake : Lake) (wr : Writer) : Prop where
  attempts : ∀ p, wr.pending = some p → 1 ≤ p.attempt ∧ p.attempt + p.left = wr.attempts
  unsent : ∀ p, wr.pending = some p → Unreferenced lake p.files

/-- What a turn does. -/
inductive Answered (lake : Lake) (wr : Writer) (p : Pending) :
    CommitReply → EStateM.Result Error World Bool → Prop
  | applied :
    Answered lake wr p .applied (.ok true
      ⟨{ wr.sink with table := (lake.append p.files).table }, lake.append p.files⟩)
  | again {why : String} (hl : p.left ≠ 0) (hb : behind lake wr = 1) :
    Answered lake wr p (.refused why) (.ok false ⟨{ wr.sink with table := lake.table }, lake⟩)
  | gaveUp {why : String} {e : Error} (hl : p.left = 0) (hb : behind lake wr = 1) :
    Answered lake wr p (.refused why) (.error e ⟨wr.sink, lake⟩)

section
variable {lake : Lake} {wr : Writer} {p : Pending} {files : List DataFile} {reply : CommitReply}
  {reloaded : Reply} {r : EStateM.Result Error World Bool} {w : World}

theorem behind_le_one (lake : Lake) (wr : Writer) : behind lake wr ≤ 1 := by
  unfold behind
  split <;> omega

/-- **A turn** under a catalog that is there. -/
theorem answered (h : Trying lake wr) (hp : wr.pending = some p) (hs : Served lake wr reply reloaded) :
    Answered lake wr p reply (p.turn reply reloaded ⟨wr.sink, lake⟩) := by
  cases reply with
  | applied =>
    have ha :
        commitOnce ((answering .applied reloaded).commits p.attempt) p.files ⟨wr.sink, lake⟩ = _ :=
      commitOnce_applied (h.unsent p hp)
    rw [Pending.turn, commitTurn_of_ok ha]
    exact .applied
  | refused why =>
    cases reloaded with
    | error e => exact hs.elim
    | ok u =>
      obtain ⟨e, he⟩ : ∃ e, commitOnce ((answering (.refused why) (.ok u)).commits p.attempt) p.files
          ⟨wr.sink, lake⟩ = .error e ⟨wr.sink, lake⟩ := commitOnce_refused
      by_cases hl : p.left = 0
      · obtain ⟨e', he'⟩ := commitTurn_gives_up (.inl hl) he
        rw [Pending.turn, he']
        exact .gaveUp hl hs
      · rw [Pending.turn, commitTurn_again hl rfl he]
        exact .again hl hs
  | lost why => exact hs.elim

theorem used_new (sink : IcebergSink) (files : List DataFile) :
    (Pending.new sink files).elim 0 (·.attempt - 1) = 0 := by
  unfold Pending.new
  split <;> rfl

theorem trying_none {sink : IcebergSink} {since : List TradeRow} :
    Trying lake ⟨sink, none, since⟩ := ⟨fun _ hp => (nomatch hp), fun _ hp => (nomatch hp)⟩

theorem trying_new {sink : IcebergSink} {since : List TradeRow} (hu : Unreferenced lake files) :
    Trying lake ⟨sink, Pending.new sink files, since⟩ := by
  refine ⟨fun p hp => ?_, fun p hp => ?_⟩
  · unfold Pending.new at hp
    split at hp
    · cases hp
    · cases hp
      refine ⟨le_rfl, ?_⟩
      show 1 + (max sink.cfg.commitRetries 1 - 1) = max sink.cfg.commitRetries 1
      omega
  · rw [(pending_new hp).2]
    exact hu

theorem Answered.snapshots (ha : Answered lake wr p reply r) :
    (final r).lake.table.snapshots = lake.table.snapshots + applies reply := by
  cases ha <;> rfl

/-- The writer's own turn. -/
theorem Answered.own (ha : Answered lake wr p reply r) (h : Trying lake wr)
    (hp : wr.pending = some p) :
    Trying (final r).lake ⟨(final r).sink, p.next r, wr.since⟩ ∧
    (if wr.givesUp reply then wr.attempts - 1 else 0) +
      credit (final r).lake ⟨(final r).sink, p.next r, wr.since⟩ ≤ credit lake wr := by
  obtain ⟨h1, hall⟩ := h.attempts p hp
  cases ha with
  | applied =>
    refine ⟨trying_none, ?_⟩
    simp [Writer.givesUp, credit, behind, Pending.next]
  | @again why hl hb =>
    refine ⟨⟨fun q hq => ?_, fun q hq => ?_⟩, ?_⟩
    · cases hq
      refine ⟨Nat.le_add_left 1 _, ?_⟩
      show p.attempt + 1 + (p.left - 1) = wr.attempts
      omega
    · cases hq
      exact h.unsent p hp
    · have hg : wr.givesUp (.refused why) = false := by simp [Writer.givesUp, hp, hl]
      have hnow : behind lake ⟨{ wr.sink with table := lake.table }, none, []⟩ = 0 := if_pos rfl
      rw [hg, if_neg Bool.false_ne_true, credit, credit, hb, hp]
      show 0 + (behind lake ⟨{ wr.sink with table := lake.table }, none, []⟩ + (p.attempt + 1 - 1)) ≤
        1 + (p.attempt - 1)
      omega
  | @gaveUp why e hl hb =>
    refine ⟨trying_none, ?_⟩
    -- The metadata stays as it is, so the next batch starts behind.
    have hg : wr.givesUp (.refused why) = true := by simp [Writer.givesUp, hp, hl]
    rw [hg, if_pos rfl, credit, credit, hb, hp]
    show wr.attempts - 1 + (behind lake wr + 0) ≤ 1 + (p.attempt - 1)
    omega

/-- A writer that gives up has had all its attempts paid. -/
theorem Answered.ends (ha : Answered lake wr p reply r) (h : Trying lake wr)
    (hp : wr.pending = some p) :
    (∀ done w, r = .ok done w → wr.givesUp reply = false) ∧
    ∀ e w, r = .error e w → wr.givesUp reply = true ∧ wr.attempts ≤ credit lake wr := by
  obtain ⟨h1, hall⟩ := h.attempts p hp
  cases ha with
  | applied => exact ⟨fun _ _ _ => rfl, fun _ _ he => (nomatch he)⟩
  | again hl hb =>
    refine ⟨fun _ _ _ => ?_, fun _ _ he => (nomatch he)⟩
    simp [Writer.givesUp, hp, hl]
  | gaveUp hl hb =>
    refine ⟨fun _ _ he => (nomatch he), fun _ _ _ => ⟨?_, ?_⟩⟩
    · simp [Writer.givesUp, hp, hl]
    · rw [credit, hb, hp, Option.elim_some]
      omega

/-- A turn of the other writer. -/
theorem Answered.foreign {other : Writer} (ha : Answered lake wr p reply r) (h : Trying lake other)
    (ho : Owns lake other) (hf : ∀ f ∈ p.files, f.path.uuid ≠ other.sink.fileNameGen.uuid) :
    Trying (final r).lake other ∧
    credit (final r).lake other ≤ credit lake other + applies reply := by
  cases ha with
  | applied =>
    refine ⟨⟨h.attempts, fun q hq => ho.unreferenced hq hf (h.unsent q hq)⟩, ?_⟩
    have := behind_le_one (lake.append p.files) other
    show behind (lake.append p.files) other + _ ≤ behind lake other + _ + 1
    omega
  | again _ _ => exact ⟨h, le_rfl⟩
  | gaveUp _ _ => exact ⟨h, le_rfl⟩

end

/-! ## Steps -/

/-- Both writers. -/
structure Balanced (s : State) : Prop where
  apart : Apart s
  batcher : Trying s.lake s.batcher
  backfill : ∀ b, s.backfill = some b → Trying s.lake b.writer

/-- The backfill's credit, while it runs. -/
def State.backfillCredit (s : State) : Nat := s.backfill.elim 0 fun b => credit s.lake b.writer

/-- What a step costs is paid. -/
structure Pays (s : State) (a : Action) (s' : State) : Prop where
  batcher : s.batcherWaste a + credit s'.lake s'.batcher ≤
    credit s.lake s.batcher + a.backfillCommits
  backfill : s.backfillWaste a + s'.backfillCredit ≤ s.backfillCredit + a.batcherCommits
  snapshots : s'.lake.table.snapshots =
    s.lake.table.snapshots + (a.batcherCommits + a.backfillCommits)

section
variable {s s' : State} {a : Action} {b : Backfilling} {p : Pending}

/-- A write that fails before its commit leaves the sink's metadata alone. -/
theorem writeFiles_table {ops : WriteOps} {rows : List TradeEvent} {w w' : World} {e : Error}
    (h : Opened Trades.schema w) (hf : writeFiles ops rows w = .error e w') :
    w'.sink.table = w.sink.table := by
  rcases h.session with hw | ⟨batch, hw⟩
  · by_cases hp : ops.ProbeOk
    · cases hr : ops.writeRecords with
      | ok u =>
        obtain ⟨files, probe, hok, -⟩ := writeFiles_ok rows h hw hp hr
        rw [hok] at hf
        cases hf
      | error why =>
        obtain ⟨e', n, he⟩ := writeFiles_orphans rows h hw hp hr
        rw [he] at hf
        cases hf
        rfl
    · obtain ⟨e', batch, he⟩ := writeFiles_failed rows h hw hp
      rw [he] at hf
      cases hf
      rfl
  · obtain ⟨e', he⟩ := writeFiles_taken ops rows h hw
    rw [he] at hf
    cases hf
    rfl

theorem Balanced.probe (h : Balanced s) (hp : s.batcher.pending = none) (ops : WriteOps)
    (rows : List TradeEvent) :
    Balanced (s.probe ops rows) ∧ Pays s (.probe ops rows) (s.probe ops rows) := by
  have hapart := h.apart.probe ops rows
  have hcredit : credit s.lake s.batcher = behind s.lake s.batcher := by
    rw [credit, hp]
    rfl
  unfold State.probe at hapart ⊢
  rcases writeFiles_spec h.apart.batcher.opened ops rows with
    ⟨files, probe, hf, hn, -⟩ | ⟨e, w, hf, -, hl, -⟩
  · rw [hf] at hapart ⊢
    refine ⟨⟨hapart, trying_new hn.unreferenced, h.backfill⟩, ?_, (Nat.zero_add _).le, rfl⟩
    rw [hcredit, credit, used_new]
    exact (Nat.zero_add _).le
  · have ht := writeFiles_table h.apart.batcher.opened hf
    rw [hf] at hapart ⊢
    dsimp only at hapart hl ht ⊢
    rw [hl] at hapart ⊢
    refine ⟨⟨hapart, trying_none, h.backfill⟩, ?_, (Nat.zero_add _).le, rfl⟩
    rw [hcredit, credit, behind, ht]
    exact (Nat.zero_add _).le

theorem Balanced.commit (h : Balanced s) (hp : s.batcher.pending = some p) {reply : CommitReply}
    {reloaded : Reply} (hs : Served s.lake s.batcher reply reloaded) :
    Balanced (s.commit p reply reloaded) ∧
      Pays s (.commit reply reloaded) (s.commit p reply reloaded) := by
  have hapart := h.apart.commit hp reply reloaded
  have ha := answered h.batcher hp hs
  have hown := h.apart.batcher.owned p hp
  unfold State.commit at hapart ⊢
  generalize p.turn reply reloaded ⟨s.batcher.sink, s.lake⟩ = r at ha hapart ⊢
  obtain ⟨htry, hcost⟩ := ha.own h.batcher hp
  have hother : ∀ b, s.backfill = some b → Trying (final r).lake b.writer ∧
      credit (final r).lake b.writer ≤ credit s.lake b.writer + applies reply := fun b hb => by
    obtain ⟨hb', -, hne⟩ := h.apart.backfill b hb
    exact ha.foreign (h.backfill b hb) hb' fun f hf => by
      rw [hown.uuid f hf]
      exact hne.symm
  refine ⟨⟨hapart, htry, fun b hb => ?_⟩, hcost, ?_, ha.snapshots⟩
  · obtain ⟨b₀, hb₀, rfl⟩ := Option.map_eq_some_iff.1 hb
    obtain ⟨h1, h2⟩ := (hother b₀ hb₀).1
    exact ⟨h1, h2⟩
  · unfold State.backfillCredit
    cases hb : s.backfill with
    | none => exact Nat.zero_le _
    | some b =>
      show 0 + credit (final r).lake b.writer ≤ credit s.lake b.writer + applies reply
      rw [Nat.zero_add]
      exact (hother b hb).2

theorem Balanced.restart (h : Balanced s) (ident : String) (cfg : IcebergConfig) :
    Balanced (s.restart ident cfg) ∧ Pays s (.restart ident cfg) (s.restart ident cfg) := by
  refine ⟨⟨h.apart.restart ident cfg, trying_none, fun b hb => ?_⟩, ?_, (Nat.zero_add _).le, rfl⟩
  · obtain ⟨h1, h2⟩ := h.backfill b hb
    exact ⟨h1, h2⟩
  · have hnow : credit (s.restart ident cfg).lake (s.restart ident cfg).batcher = 0 := by
      simp [credit, behind, State.restart, connect]
    rw [hnow]
    exact Nat.zero_le _

theorem Balanced.start (h : Balanced s) (cmd : Command) :
    Balanced (s.start cmd) ∧ Pays s (.start cmd) (s.start cmd) := by
  refine ⟨⟨h.apart.start cmd, ⟨h.batcher.attempts, h.batcher.unsent⟩, fun b hb => ?_⟩, ?_, ?_, rfl⟩
  · cases hb
    exact trying_none
  · exact (Nat.zero_add _).le
  · have hnow : (s.start cmd).backfillCredit = 0 := by
      simp [State.backfillCredit, credit, behind, State.start, connect]
    rw [hnow]
    exact Nat.zero_le _

theorem Balanced.writeChunk (h : Balanced s) (hb : s.backfill = some b)
    (hp : b.writer.pending = none) {c : RecordBatch} {cs : List RecordBatch}
    (hc : b.chunks = c :: cs) (ops : CommitOps) :
    Balanced (s.writeChunk b c cs ops) ∧ Pays s (.writeChunk ops) (s.writeChunk b c cs ops) := by
  have hapart := h.apart.writeChunk hb hc ops
  obtain ⟨hr, hsc, -⟩ := h.apart.backfill b hb
  rw [hc] at hsc
  unfold State.writeChunk at hapart ⊢
  rcases chunkFiles_spec hr.opened (List.forall_mem_cons.1 hsc).1 with
    ⟨files, hf, hn, -⟩ | ⟨e, w, hf, hl⟩
  · rw [hf] at hapart ⊢
    refine ⟨⟨hapart, h.batcher, fun b' hb' => ?_⟩, (Nat.zero_add _).le, ?_, rfl⟩
    · cases hb'
      exact trying_new hn.unreferenced
    · unfold State.backfillCredit
      rw [hb, Option.elim_some, Option.elim_some, credit, credit, used_new, hp]
      exact (Nat.zero_add _).le
  · rw [hf] at hapart ⊢
    dsimp only at hapart hl ⊢
    rw [hl] at hapart ⊢
    exact ⟨⟨hapart, h.batcher, fun b' hb' => nomatch hb'⟩, (Nat.zero_add _).le, Nat.zero_le _, rfl⟩

theorem Balanced.commitChunk (h : Balanced s) (hb : s.backfill = some b)
    (hp : b.writer.pending = some p) {reply : CommitReply} {reloaded : Reply}
    (hs : Served s.lake b.writer reply reloaded) :
    Balanced (s.commitChunk b p reply reloaded) ∧
      Pays s (.commitChunk reply reloaded) (s.commitChunk b p reply reloaded) := by
  have hapart := h.apart.commitChunk hb hp reply reloaded
  obtain ⟨hr, -, hne⟩ := h.apart.backfill b hb
  have htrying := h.backfill b hb
  have ha := answered htrying hp hs
  have hown := hr.owned p hp
  unfold State.commitChunk at hapart ⊢
  dsimp only at hapart ⊢
  generalize p.turn reply reloaded ⟨b.writer.sink, s.lake⟩ = r at ha hapart ⊢
  obtain ⟨htry, hcost⟩ := ha.own htrying hp
  obtain ⟨hok, herr⟩ := ha.ends htrying hp
  obtain ⟨h1, h2⟩ := ha.foreign h.batcher h.apart.batcher fun f hf => by
    rw [hown.uuid f hf]
    exact hne
  refine ⟨⟨hapart, ⟨h1.attempts, h1.unsent⟩, fun b' hb' => ?_⟩, ?_, ?_, ?_⟩
  · cases r with
    | ok done w =>
      cases hb'
      exact htry
    | error e w => cases hb'
  · show 0 + credit (final r).lake s.batcher ≤ credit s.lake s.batcher + applies reply
    rw [Nat.zero_add]
    exact h2
  · have hcredit : s.backfillCredit = credit s.lake b.writer := by
      rw [State.backfillCredit, hb]
      rfl
    have hwaste : s.backfillWaste (.commitChunk reply reloaded) =
        if b.writer.givesUp reply then b.writer.attempts else 0 := by
      rw [State.backfillWaste, hb]
      rfl
    rw [hcredit, hwaste]
    cases r with
    | ok done w =>
      rw [hok done w rfl] at hcost ⊢
      exact hcost
    | error e w =>
      obtain ⟨hg, hpaid⟩ := herr e w rfl
      rw [hg]
      exact hpaid
  · rw [show (Action.commitChunk reply reloaded).batcherCommits = 0 from rfl, Nat.zero_add]
    exact ha.snapshots

theorem balanced_step (ha : Optimistic s a) (h : Balanced s) (hs : step s a = some s') :
    Balanced s' ∧ Pays s a s' := by
  cases step_takes hs with
  | probe hp => exact h.probe hp _ _
  | commit hp => exact h.commit hp ha
  | restart => exact h.restart _ _
  | start _ => exact h.start _
  | writeChunk hb hp hc => exact h.writeChunk hb hp hc _
  | commitChunk hb hp => exact h.commitChunk hb hp (ha _ hb)
  | exit =>
    exact ⟨⟨⟨h.apart.batcher, fun _ hb => nomatch hb⟩, h.batcher, fun _ hb => nomatch hb⟩,
      (Nat.zero_add _).le, Nat.zero_le _, rfl⟩

theorem balanced_init (ident : String) (cfg : IcebergConfig) {lake : Lake}
    (hl : lake.table.schema = Trades.schema) : Balanced (.init ident cfg lake) :=
  ⟨apart_init ident cfg hl, trying_none, fun _ hb => nomatch hb⟩

end

/-! ## Every run -/

section
variable {as : List Action} {s₀ s : State}

/-- The batcher's part. -/
theorem batcher_paid (h₀ : Balanced s₀) (h : Machine.run step s₀ as = some s)
    (hopt : Machine.EachStep step Optimistic s₀ as) :
    Machine.tally step State.batcherWaste s₀ as + credit s.lake s.batcher ≤
      credit s₀.lake s₀.batcher + (as.map Action.backfillCommits).sum := by
  have hpaid : (Machine.tally step State.batcherWaste s₀ as : Int) + credit s.lake s.batcher ≤
      credit s₀.lake s₀.batcher + Machine.tally step (fun _ a => a.backfillCommits) s₀ as := by
    refine Machine.run_tally (I := Balanced) (V := fun s => (credit s.lake s.batcher : Int))
      (fun _ _ _ ha hi hs => (balanced_step ha hi hs).1) (fun s a s' ha hi hs => ?_) hopt h₀ h
    have := (balanced_step ha hi hs).2.batcher
    omega
  rw [Machine.tally_of_run h] at hpaid
  omega

theorem backfill_paid (h₀ : Balanced s₀) (h : Machine.run step s₀ as = some s)
    (hopt : Machine.EachStep step Optimistic s₀ as) :
    Machine.tally step State.backfillWaste s₀ as + s.backfillCredit ≤
      s₀.backfillCredit + (as.map Action.batcherCommits).sum := by
  have hpaid : (Machine.tally step State.backfillWaste s₀ as : Int) + s.backfillCredit ≤
      s₀.backfillCredit + Machine.tally step (fun _ a => a.batcherCommits) s₀ as := by
    refine Machine.run_tally (I := Balanced) (V := fun s => (s.backfillCredit : Int))
      (fun _ _ _ ha hi hs => (balanced_step ha hi hs).1) (fun s a s' ha hi hs => ?_) hopt h₀ h
    have := (balanced_step ha hi hs).2.backfill
    omega
  rw [Machine.tally_of_run h] at hpaid
  omega

theorem snapshots_eq (h₀ : Balanced s₀) (h : Machine.run step s₀ as = some s)
    (hopt : Machine.EachStep step Optimistic s₀ as) :
    s.lake.table.snapshots = s₀.lake.table.snapshots +
      ((as.map Action.batcherCommits).sum + (as.map Action.backfillCommits).sum) := by
  induction as generalizing s₀ with
  | nil =>
    cases h
    rfl
  | cons a as ih =>
    obtain ⟨m, hm, hr⟩ := Machine.run_cons.1 h
    obtain ⟨hbal, hpays⟩ := balanced_step hopt.1 h₀ hm
    rw [ih hbal hr (hopt.2 m hm), hpays.snapshots]
    simp only [List.map_cons, List.sum_cons]
    omega

end

/-- **Conflicts are paid.** With a catalog that refuses a commit only when the table has moved on,
the attempts of the batches that the batcher gives up, but for the first of each, are no more than the
backfill's commits, and all the attempts of the chunks that a backfill gives up no more than the
batcher's; every request that was not refused made a snapshot. -/
theorem conflicts_paid (ident : String) (cfg : IcebergConfig) {lake : Lake}
    (hl : lake.table.schema = Trades.schema) {as : List Action} {s : State}
    (h : Machine.run step (.init ident cfg lake) as = some s)
    (hopt : Machine.EachStep step Optimistic (.init ident cfg lake) as) :
    Machine.tally step State.batcherWaste (.init ident cfg lake) as ≤
      (as.map Action.backfillCommits).sum ∧
    Machine.tally step State.backfillWaste (.init ident cfg lake) as ≤
      (as.map Action.batcherCommits).sum ∧
    s.lake.table.snapshots = lake.table.snapshots +
      ((as.map Action.batcherCommits).sum + (as.map Action.backfillCommits).sum) := by
  have h₀ := balanced_init ident cfg hl
  have hcredit : credit (State.init ident cfg lake).lake (State.init ident cfg lake).batcher = 0 := by
    simp [credit, behind, State.init, connect]
  have hnone : (State.init ident cfg lake).backfillCredit = 0 := rfl
  have hbatcher := batcher_paid h₀ h hopt
  have hbackfill := backfill_paid h₀ h hopt
  refine ⟨by omega, by omega, snapshots_eq h₀ h hopt⟩

instance decidableServed (lake : Lake) (wr : Writer) :
    ∀ reply reloaded, Decidable (Served lake wr reply reloaded)
  | .applied, _ => isTrue trivial
  | .refused _, .ok () => inferInstanceAs (Decidable (behind lake wr = 1))
  | .refused _, .error _ => isFalse not_false
  | .lost _, _ => isFalse not_false

instance decidableOptimistic (s : State) : ∀ a, Decidable (Optimistic s a)
  | .commit reply reloaded => decidableServed s.lake s.batcher reply reloaded
  | .commitChunk reply reloaded =>
    match h : s.backfill with
    | none => isTrue fun _ hb => nomatch h.symm.trans hb
    | some b => decidable_of_iff (Served s.lake b.writer reply reloaded) (by simp [Optimistic, h])
  | .probe _ _ => isTrue trivial
  | .restart _ _ => isTrue trivial
  | .start _ => isTrue trivial
  | .writeChunk _ => isTrue trivial
  | .exit => isTrue trivial

/-- A backfill with one attempt for a chunk dies of the batcher's commit; its next run is applied,
at the cost of a retry of the batcher's. -/
def backfillDies : List Action :=
  [.start { fillDayZero with cfg := ⟨1⟩ }, .writeChunk .allOk, .probe .allOk [btcTrade 2 1000],
    .commit .applied (.ok ()), .commitChunk (.refused "conflict") (.ok ()),
    .start fillDayZero, .writeChunk .allOk, .probe .allOk [btcTrade 3 1000],
    .commitChunk .applied (.ok ()), .commit (.refused "conflict") (.ok ()),
    .commit .applied (.ok ())]

theorem conflicts_paid_backfill_dies : ∃ s,
    Machine.run step (.init "trades.trades" ⟨5⟩ .created) backfillDies = some s ∧
    Machine.tally step State.backfillWaste (.init "trades.trades" ⟨5⟩ .created) backfillDies = 1 ∧
    Machine.tally step State.backfillWaste (.init "trades.trades" ⟨5⟩ .created) backfillDies ≤
      (backfillDies.map Action.batcherCommits).sum ∧ s.lake.table.snapshots = 3 := by
  have hx : (Machine.run step (.init "trades.trades" ⟨5⟩ .created) backfillDies).isSome := by
    decide +kernel
  obtain ⟨s, hs⟩ := Option.isSome_iff_exists.1 hx
  have hl : Lake.created.table.schema = Trades.schema := rfl
  obtain ⟨-, hpaid, hsnap⟩ := conflicts_paid "trades.trades" ⟨5⟩ hl hs (by decide +kernel)
  exact ⟨s, hs, by decide +kernel, hpaid, hsnap⟩

end Writers
