import Mathlib.Data.Set.Insert
import Mathlib.Data.Set.Basic
import CryptoLakehouse.Lib.Simulation

/-!
# At-least-once delivery

What a consumer that moves messages into a keyed store promises, whatever it does in between. A
message `i` has a row (`row i = some r`) or is of no use (`none`), and rows with the same `key` stand
for one another. Rows of messages get stored (`Step.store`), others store rows too (`Step.other`),
and a message is finished with only once a row with its key is stored (`Step.finish`).

* `Sound` — a finished message of use has its key in the store: nothing is lost.
* `Sourced` — a stored row was there before, or is a message's, or another's: nothing is made up.
* `Step.stored_mono` — nothing is taken back.
-/

namespace Delivery

open Relation

variable {ι ρ κ : Type*}

structure State (ι ρ : Type*) where
  stored : Set ρ
  finished : Set ι
  /-- What others have stored. -/
  others : Set ρ

/-- A row with the same key is stored. -/
def Held (key : ρ → κ) (s : State ι ρ) (r : ρ) : Prop := ∃ r' ∈ s.stored, key r' = key r

inductive Step (row : ι → Option ρ) (key : ρ → κ) (s : State ι ρ) : State ι ρ → Prop
  | store (rows : Set ρ) (h : ∀ r ∈ rows, ∃ i, row i = some r) :
      Step row key s { s with stored := s.stored ∪ rows }
  | other (rows : Set ρ) :
      Step row key s { s with stored := s.stored ∪ rows, others := s.others ∪ rows }
  | finish (i : ι) (h : ∀ r, row i = some r → Held key s r) :
      Step row key s { s with finished := insert i s.finished }

/-- Nothing is lost. -/
def Sound (row : ι → Option ρ) (key : ρ → κ) (s : State ι ρ) : Prop :=
  ∀ i ∈ s.finished, ∀ r, row i = some r → Held key s r

/-- Nothing is made up, beyond what was there at first. -/
def Sourced (row : ι → Option ρ) (first : Set ρ) (s : State ι ρ) : Prop :=
  ∀ r ∈ s.stored, r ∈ first ∨ r ∈ s.others ∨ ∃ i, row i = some r

section
variable {row : ι → Option ρ} {key : ρ → κ} {s s' : State ι ρ} {first : Set ρ}

/-- Nothing is taken back. -/
theorem Step.stored_mono (h : Step row key s s') : s.stored ⊆ s'.stored := by
  cases h with
  | store rows _ => exact Set.subset_union_left
  | other rows => exact Set.subset_union_left
  | finish i _ => exact subset_rfl

theorem Held.mono {r : ρ} (h : Held key s r) (hs : s.stored ⊆ s'.stored) : Held key s' r := by
  obtain ⟨r', hr', hk⟩ := h
  exact ⟨r', hs hr', hk⟩

theorem Sound.step (h : Sound row key s) (hs : Step row key s s') : Sound row key s' := by
  have hmono := hs.stored_mono
  cases hs with
  | store rows _ => exact fun i hi r hr => (h i hi r hr).mono hmono
  | other rows => exact fun i hi r hr => (h i hi r hr).mono hmono
  | finish i hheld =>
    intro j hj r hr
    rcases Set.mem_insert_iff.1 hj with rfl | hj
    · exact hheld r hr
    · exact h j hj r hr

theorem Sourced.step (h : Sourced row first s) (hs : Step row key s s') :
    Sourced row first s' := by
  cases hs with
  | store rows hrows =>
    intro r hr
    rcases hr with hr | hr
    · exact h r hr
    · exact .inr (.inr (hrows r hr))
  | other rows =>
    intro r hr
    rcases hr with hr | hr
    · exact (h r hr).imp id fun hx => hx.imp Or.inl id
    · exact .inr (.inl (.inr hr))
  | finish i _ => exact h

/-- Nothing is taken back over any number of steps. -/
theorem stored_mono (h : ReflTransGen (Step row key) s s') : s.stored ⊆ s'.stored := by
  induction h with
  | refl => exact subset_rfl
  | tail _ hs ih => exact ih.trans hs.stored_mono

end

end Delivery
