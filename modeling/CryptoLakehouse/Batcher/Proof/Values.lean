import Mathlib.Data.List.TakeDrop
import Mathlib.Data.List.TakeWhile
import Mathlib.Data.Nat.Digits.Defs
import Mathlib.Tactic.Ring
import Mathlib.Tactic.SplitIfs
import CryptoLakehouse.Batcher.Settings

/-!
# What the variables stand for

A reader of the configuration makes a value of its field's type out of a variable's text. Here is
said of the texts alone which value they stand for (`Plain`, `Numeral`, `Seconds`, `Size`, `Word`),
and that a text that stands for none gives way to the default (`Reads`).

* `string_reads`, `usizeEnv_reads`, `u32Env_reads` — texts and integers are read so.
* `seconds_reads`, `seconds_panics` — durations are, or the reader panics.
* `bytesEnv_reads_iff` — sizes are, unless the text is a size that does not fit.
* `boolEnv_reads_iff` — flags are, unless the text is no word for a flag.
-/

namespace Batcher.Settings

/-! ## Texts -/

/-- The variable is set to a text that is not blank. -/
def HasText (env : Env) (key raw : String) : Prop :=
  env key = some raw ∧ ∃ c ∈ raw.toList, isWhitespace c = false

/-- The variable is not set, or blank. -/
def Unset (env : Env) (key : String) : Prop := ∀ raw, ¬HasText env key raw

/-- The field is what the variable's text stands for, or the default if it stands for nothing. -/
def Reads {α : Type} (env : Env) (Means : String → α → Prop) (key : String) (default field : α) :
    Prop :=
  (∃ raw, HasText env key raw ∧ Means raw field) ∨
    (∀ raw, HasText env key raw → ∀ v, ¬Means raw v) ∧ field = default

/-- A text stands for itself. -/
def Plain (raw v : String) : Prop := v = raw

/-- Digits, with or without a plus sign, of a number that fits in the bits. -/
def Numeral (bits : Nat) (raw : String) (n : Nat) : Prop :=
  ∃ digits, (raw.toList = digits ∨ raw.toList = '+' :: digits) ∧ digits ≠ [] ∧
    (∀ c ∈ digits, c.isDigit = true) ∧
    n = Nat.ofDigits 10 (digits.reverse.map fun c => c.toNat - '0'.toNat) ∧ n < 2 ^ bits

/-- The text between the whitespace at its ends, in lower case. -/
def word (raw : String) : String := String.ofList ((trim raw).map Char.toLower)

/-- A word for a flag. -/
def Word (raw : String) (b : Bool) : Prop :=
  word raw ∈ if b then ["1", "true", "yes", "on"] else ["0", "false", "no", "off"]

/-- The seconds are a duration. -/
def Float64.usable : Float64 → Bool
  | finite value => 0 ≤ value && value < 2 ^ 64
  | _ => false

/-- The nanoseconds of a duration. -/
def nanos (value : Rat) : Nat := (roundTiesEven (value * 1000000000)).toNat

/-- The units of a size, and their bytes. -/
def units : List (String × Rat) :=
  [("", 1), ("b", 1), ("k", 1024), ("kb", 1024), ("kib", 1024), ("m", 1048576), ("mb", 1048576),
    ("mib", 1048576), ("g", 1073741824), ("gb", 1073741824), ("gib", 1073741824)]

/-- The value and the unit make a size that fits in a `usize`. -/
def Fits (value : Float64) (factor : Rat) : Prop :=
  ∃ q : Rat, value = .finite q ∧ 0 ≤ q ∧ q * factor < 2 ^ 64

section
variable (parseF64 : String → Option Float64) (env : Env)

/-- A number of seconds that is a duration, in nanoseconds. -/
def Seconds (raw : String) (d : Nat) : Prop :=
  ∃ value : Rat, parseF64 raw = some (.finite value) ∧ 0 ≤ value ∧ value < 2 ^ 64 ∧ d = nanos value

/-- A number and a unit. The number goes to the first character that is neither digit nor dot, but a
text that starts with a dot is all number. -/
def Measure (raw : String) (value : Float64) (factor : Rat) : Prop :=
  ∃ num unit, trim raw = num ++ unit ∧
    (if (trim raw).head? = some '.' then unit = []
      else (∀ c ∈ num, isNumeric c = true) ∧ ∀ c ∈ unit.head?, isNumeric c = false) ∧
    parseF64 (String.ofList num) = some value ∧ (word (String.ofList unit), factor) ∈ units

/-- A size, rounded down to whole bytes, that fits in a `usize`. -/
def Size (raw : String) (n : Nat) : Prop :=
  ∃ value factor, Measure parseF64 raw (.finite value) factor ∧ 0 ≤ value ∧
    value * factor < 2 ^ 64 ∧ n = (value * factor).floor.toNat

/-! ## When they are read so -/

/-- What the variable holds is no number, or seconds that are a duration. -/
def SecondsOk (key : String) : Prop :=
  ∀ raw value, HasText env key raw → parseF64 raw = some value → value.usable = true

/-- What the variable holds is no size, or one that fits. -/
def SizeOk (key : String) : Prop :=
  ∀ raw value factor, HasText env key raw → Measure parseF64 raw value factor →
    Fits value factor

/-- What the variable holds is a word for a flag. -/
def WordOk (key : String) : Prop := ∀ raw, HasText env key raw → ∃ b, Word raw b

end

section
variable {env : Env} {key raw : String} {parseF64 : String → Option Float64}

/-! ## Texts and integers -/

theorem trim_eq_nil : trim raw = [] ↔ ∀ c ∈ raw.toList, isWhitespace c = true := by
  rw [trim, List.reverse_eq_nil_iff, List.dropWhile_eq_nil_iff]
  refine ⟨fun h c hc => ?_, fun h c hc => ?_⟩
  · by_contra hw
    have hne : raw.toList.dropWhile isWhitespace ≠ [] := fun hnil =>
      hw (List.dropWhile_eq_nil_iff.1 hnil c hc)
    have hhead := List.head_dropWhile_not isWhitespace hne
    rw [h _ (List.mem_reverse.2 (List.head_mem hne))] at hhead
    cases hhead
  · exact h c ((List.dropWhile_sublist _).subset (List.mem_reverse.1 hc))

theorem optional_eq_some_iff : optional env key = some raw ↔ HasText env key raw := by
  rw [optional, Option.filter_eq_some_iff, HasText]
  refine and_congr_right fun _ => ?_
  rw [Bool.not_eq_true', List.isEmpty_eq_false_iff, ne_eq, trim_eq_nil]
  simp only [not_forall, Bool.not_eq_true, exists_prop]

theorem optional_eq_none_iff : optional env key = none ↔ Unset env key := by
  rw [Option.eq_none_iff_forall_ne_some]
  exact forall_congr' fun raw => not_congr optional_eq_some_iff

section
variable {α : Type} {Means : String → α → Prop} {default field field' : α}

theorem Reads.of_unset (h : Unset env key) : Reads env Means key default default :=
  .inr ⟨fun raw hraw => absurd hraw (h raw), rfl⟩

theorem HasText.unique {raw' : String} (h : HasText env key raw) (h' : HasText env key raw') :
    raw = raw' := Option.some.inj (h.1.symm.trans h'.1)

/-- What a set variable is read as. -/
theorem reads_iff (h : HasText env key raw) :
    Reads env Means key default field ↔ Means raw field ∨ (∀ v, ¬Means raw v) ∧ field = default := by
  refine or_congr ⟨fun hx => ?_, fun hm => ⟨raw, h, hm⟩⟩ (and_congr_left fun _ => ?_)
  · obtain ⟨raw', hraw', hm⟩ := hx
    exact hraw'.unique h ▸ hm
  · exact ⟨fun hx v => hx raw h v, fun hx raw' hraw' => h.unique hraw' ▸ hx⟩

/-- There is one right reading. -/
theorem Reads.unique (h : Reads env Means key default field)
    (h' : Reads env Means key default field') (hm : ∀ raw v v', Means raw v → Means raw v' → v = v') :
    field = field' := by
  rcases h with ⟨raw, hraw, hv⟩ | ⟨hn, rfl⟩
  · rcases (reads_iff hraw).1 h' with hv' | ⟨hn', -⟩
    · exact hm raw _ _ hv hv'
    · exact absurd hv (hn' _)
  · rcases h' with ⟨raw, hraw, hv⟩ | ⟨-, rfl⟩
    · exact absurd hv (hn raw hraw _)
    · rfl

/-- **What is parsed right is read right.** -/
theorem parse_reads {fromStr : String → Option α} (default : α)
    (h : ∀ raw v, fromStr raw = some v ↔ Means raw v) :
    Reads env Means key default (parse env fromStr key default) := by
  rw [parse]
  cases hopt : optional env key with
  | none => exact .of_unset (optional_eq_none_iff.1 hopt)
  | some raw =>
    refine (reads_iff (optional_eq_some_iff.1 hopt)).2 ?_
    dsimp only
    cases hv : fromStr raw with
    | none => exact .inr ⟨fun v hm => (by cases hv.symm.trans ((h raw v).2 hm)), rfl⟩
    | some v => exact .inl ((h raw v).1 hv)

end

theorem string_reads (env : Env) (key default : String) :
    Reads env Plain key default (string env key default) := by
  rw [string]
  cases hopt : optional env key with
  | none => exact .of_unset (optional_eq_none_iff.1 hopt)
  | some raw => exact (reads_iff (optional_eq_some_iff.1 hopt)).2 (.inl rfl)

/-- The parser's accumulator. -/
theorem foldl_digits (digits : List Char) (n : Nat) :
    digits.foldl (fun n c => 10 * n + (c.toNat - '0'.toNat)) n = 10 ^ digits.length * n +
      Nat.ofDigits 10 (digits.reverse.map fun c => c.toNat - '0'.toNat) := by
  induction digits generalizing n with
  | nil => simp
  | cons c digits ih =>
    rw [List.foldl_cons, ih, List.reverse_cons, List.map_append, Nat.ofDigits_append,
      List.length_map, List.length_reverse, List.length_cons, List.map_singleton,
      Nat.ofDigits_singleton]
    ring

theorem stripPlus_cases (text : List Char) :
    text = stripPlus text ∨ text = '+' :: stripPlus text := by
  unfold stripPlus
  split
  · exact .inr rfl
  · exact .inl rfl

theorem stripPlus_digits {digits : List Char} (h : ∀ c ∈ digits, c.isDigit = true) :
    stripPlus digits = digits := by
  unfold stripPlus
  split
  · exact absurd (h '+' List.mem_cons_self) (by decide)
  · rfl

theorem parseUnsigned_iff {bits n : Nat} :
    parseUnsigned bits raw = some n ↔ Numeral bits raw n := by
  have hvalue : ∀ digits : List Char,
      digits.foldl (fun n c => 10 * n + (c.toNat - '0'.toNat)) 0 =
        Nat.ofDigits 10 (digits.reverse.map fun c => c.toNat - '0'.toNat) := fun digits => by
    rw [foldl_digits, Nat.mul_zero, Nat.zero_add]
  have hparse : parseUnsigned bits raw = some n ↔ stripPlus raw.toList ≠ [] ∧
      (∀ c ∈ stripPlus raw.toList, c.isDigit = true) ∧
      n = Nat.ofDigits 10 ((stripPlus raw.toList).reverse.map fun c => c.toNat - '0'.toNat) ∧
      n < 2 ^ bits := by
    simp only [parseUnsigned, hvalue, Option.ite_none_right_eq_some, Bool.and_eq_true,
      Bool.not_eq_true', List.isEmpty_eq_false_iff, List.all_eq_true, decide_eq_true_eq,
      Option.some.injEq]
    refine ⟨fun h => ?_, fun h => ?_⟩
    · obtain ⟨⟨⟨h1, h2⟩, h3⟩, rfl⟩ := h
      exact ⟨h1, h2, rfl, h3⟩
    · obtain ⟨h1, h2, rfl, h3⟩ := h
      exact ⟨⟨⟨h1, h2⟩, h3⟩, rfl⟩
  rw [hparse]
  refine ⟨fun h => ⟨_, stripPlus_cases _, h⟩, fun h => ?_⟩
  obtain ⟨digits, ht | ht, hne, hd, hn⟩ := h
  · rw [ht, stripPlus_digits hd]
    exact ⟨hne, hd, hn⟩
  · rw [ht]
    exact ⟨hne, hd, hn⟩

theorem usizeEnv_reads (env : Env) (key : String) (default : Nat) :
    Reads env (Numeral 64) key default (usizeEnv env key default) :=
  parse_reads default fun _ _ => parseUnsigned_iff

theorem u32Env_reads (env : Env) (key : String) (default : Nat) :
    Reads env (Numeral 32) key default (u32Env env key default) :=
  parse_reads default fun _ _ => parseUnsigned_iff

/-- An integer's text has one value. -/
theorem Numeral.unique {bits n n' : Nat} (h : Numeral bits raw n) (h' : Numeral bits raw n') :
    n = n' := Option.some.inj ((parseUnsigned_iff.2 h).symm.trans (parseUnsigned_iff.2 h'))

/-! ## Durations -/

theorem fromSecsF64_ok {value : Rat} (h0 : 0 ≤ value) (h1 : value < 2 ^ 64) :
    fromSecsF64 (.finite value) = .ok (nanos value) := by
  rw [fromSecsF64, if_neg (Rat.not_lt.2 h0), if_pos h1]
  rfl

theorem usable_iff {value : Float64} :
    value.usable = true ↔ ∃ q : Rat, value = .finite q ∧ 0 ≤ q ∧ q < 2 ^ 64 := by
  cases value with
  | finite q => simp [Float64.usable]
  | nan => simp [Float64.usable]
  | inf _ => simp [Float64.usable]

theorem fromSecsF64_panics {value : Float64} (h : value.usable = false) :
    ∃ text, fromSecsF64 value = .error (.panic text) := by
  cases value with
  | finite q =>
    rw [fromSecsF64]
    by_cases h0 : q < 0
    · exact ⟨_, if_pos h0⟩
    · by_cases h1 : q < 2 ^ 64
      · simp [Float64.usable, h1, Rat.not_lt.1 h0] at h
      · exact ⟨_, by rw [if_neg h0, if_neg h1]⟩
  | nan => exact ⟨_, rfl⟩
  | inf negative => cases negative <;> exact ⟨_, rfl⟩

theorem Seconds.unique {d d' : Nat} (h : Seconds parseF64 raw d) (h' : Seconds parseF64 raw d') :
    d = d' := by
  obtain ⟨q, hq, -, -, rfl⟩ := h
  obtain ⟨q', hq', -, -, rfl⟩ := h'
  cases hq.symm.trans hq'
  rfl

/-- **Durations** are read right where the seconds are a duration. -/
theorem seconds_reads (default : Rat) (d₀ : Nat)
    (hd : (Float64.finite default).usable = true ∧ nanos default = d₀)
    (h : SecondsOk parseF64 env key) : ∃ d, seconds parseF64 env key default = .ok d ∧
      Reads env (Seconds parseF64) key d₀ d := by
  obtain ⟨hu, rfl⟩ := hd
  obtain ⟨_, hq, hd0, hd1⟩ := usable_iff.1 hu
  cases hq
  unfold seconds parse
  cases hopt : optional env key with
  | none => exact ⟨_, fromSecsF64_ok hd0 hd1, .of_unset (optional_eq_none_iff.1 hopt)⟩
  | some raw =>
    have hraw := optional_eq_some_iff.1 hopt
    dsimp only
    cases hv : parseF64 raw with
    | none =>
      refine ⟨_, fromSecsF64_ok hd0 hd1, (reads_iff hraw).2 (.inr ⟨fun d hx => ?_, rfl⟩)⟩
      obtain ⟨q, hq, -⟩ := hx
      cases hv.symm.trans hq
    | some value =>
      obtain ⟨q, rfl, h0, h1⟩ := usable_iff.1 (h raw value hraw hv)
      exact ⟨_, fromSecsF64_ok h0 h1, (reads_iff hraw).2 (.inl ⟨q, hv, h0, h1, rfl⟩)⟩

/-- Other numbers do not give way to the default. -/
theorem seconds_panics {default : Rat} (h : ¬SecondsOk parseF64 env key) :
    ∃ text, seconds parseF64 env key default = .error (.panic text) := by
  unfold SecondsOk at h
  push Not at h
  obtain ⟨raw, value, hraw, hv, hu⟩ := h
  have hparse : parse env parseF64 key (.finite default) = value := by
    rw [parse, optional_eq_some_iff.2 hraw]
    dsimp only
    rw [hv]
    rfl
  rw [seconds, hparse]
  exact fromSecsF64_panics (Bool.eq_false_iff.2 hu)

/-! ## Sizes -/

/-- The split of a text into number and unit. -/
theorem split_iff {text num unit : List Char} :
    (if text.head? = some '.' then (text, []) else text.span isNumeric) = (num, unit) ↔
      text = num ++ unit ∧ (if text.head? = some '.' then unit = []
        else (∀ c ∈ num, isNumeric c = true) ∧ ∀ c ∈ unit.head?, isNumeric c = false) := by
  split
  · refine ⟨fun h => ?_, fun h => ?_⟩
    · cases h
      exact ⟨(List.append_nil _).symm, rfl⟩
    · obtain ⟨rfl, rfl⟩ := h
      rw [List.append_nil]
  · rw [List.span_eq_takeWhile_dropWhile]
    refine ⟨fun h => ?_, fun h => ?_⟩
    · cases h
      refine ⟨List.takeWhile_append_dropWhile.symm, fun c hc => ?_, fun c hc => ?_⟩
      · exact List.mem_takeWhile_imp hc
      · have hhead := List.head?_dropWhile_not isNumeric text
        rw [Option.mem_def.1 hc] at hhead
        exact hhead
    · obtain ⟨rfl, hnum, hunit⟩ := h
      cases unit with
      | nil => simpa using hnum
      | cons c unit =>
        have hc := hunit c rfl
        rw [List.takeWhile_append_of_pos hnum, List.dropWhile_append_of_pos hnum]
        simp [hc]

/-- The factor of a unit. -/
theorem factor_iff {suffix : String} {factor : Rat} :
    factorOf suffix = some factor ↔ (suffix, factor) ∈ units := by
  unfold factorOf
  refine ⟨fun h => ?_, fun h => ?_⟩
  · split_ifs at h
    all_goals
      rename_i hs
      cases h
      simp only [List.mem_cons, List.not_mem_nil, or_false] at hs
      rcases hs with rfl | rfl | rfl <;> decide +kernel
  · simp only [units, List.mem_cons, Prod.mk.injEq, List.not_mem_nil, or_false] at h
    rcases h with ⟨rfl, rfl⟩ | ⟨rfl, rfl⟩ | ⟨rfl, rfl⟩ | ⟨rfl, rfl⟩ | ⟨rfl, rfl⟩ | ⟨rfl, rfl⟩ |
      ⟨rfl, rfl⟩ | ⟨rfl, rfl⟩ | ⟨rfl, rfl⟩ | ⟨rfl, rfl⟩ | ⟨rfl, rfl⟩ <;> decide +kernel

theorem measure_iff {value : Float64} {factor : Rat} {p : List Char × List Char}
    (hp : (if (trim raw).head? = some '.' then (trim raw, []) else (trim raw).span isNumeric) = p) :
    Measure parseF64 raw value factor ↔
      parseF64 (String.ofList p.1) = some value ∧ (word (String.ofList p.2), factor) ∈ units := by
  refine ⟨fun h => ?_, fun h => ?_⟩
  · obtain ⟨num, unit, ht, hs, hv, hf⟩ := h
    cases hp.symm.trans (split_iff.2 ⟨ht, hs⟩)
    exact ⟨hv, hf⟩
  · obtain ⟨ht, hs⟩ := split_iff.1 hp
    exact ⟨p.1, p.2, ht, hs, h.1, h.2⟩

theorem Measure.unique {value value' : Float64} {factor factor' : Rat}
    (h : Measure parseF64 raw value factor) (h' : Measure parseF64 raw value' factor') :
    value = value' ∧ factor = factor' := by
  obtain ⟨hv, hf⟩ := (measure_iff rfl).1 h
  obtain ⟨hv', hf'⟩ := (measure_iff rfl).1 h'
  exact ⟨Option.some.inj (hv.symm.trans hv'),
    Option.some.inj ((factor_iff.2 hf).symm.trans (factor_iff.2 hf'))⟩

/-- **The parser of sizes** makes of each its whole bytes, cut to the limits of a `usize`. -/
theorem parseBytes_iff {n : Nat} : parseBytes parseF64 raw = some n ↔
    ∃ value factor, Measure parseF64 raw value factor ∧ n = (value.scale factor).asUsize := by
  unfold parseBytes
  dsimp only
  generalize hp : (if (trim raw).head? = some '.' then (trim raw, [])
    else (trim raw).span isNumeric) = p
  simp only [measure_iff hp, Option.bind_eq_bind, Option.bind_eq_some_iff]
  refine exists_congr fun value => ⟨fun h => ?_, fun h => ?_⟩
  · obtain ⟨hv, factor, hf, hn⟩ := h
    exact ⟨factor, ⟨hv, factor_iff.1 hf⟩, (Option.some.inj hn).symm⟩
  · obtain ⟨factor, ⟨hv, hf⟩, rfl⟩ := h
    exact ⟨hv, factor, factor_iff.2 hf, rfl⟩

theorem asUsize_of_fits {value factor : Rat} (h : value * factor < 2 ^ 64) :
    ((Float64.finite value).scale factor).asUsize = (value * factor).floor.toNat := by
  have hfloor : (value * factor).floor < (2 ^ 64 : Int) := Rat.floor_lt_iff.2 (by exact_mod_cast h)
  show min (value * factor).floor.toNat (2 ^ 64 - 1) = _
  omega

/-- What does not fit is cut to a limit. -/
theorem asUsize_of_not_fits {value : Float64} {factor : Rat} (hf : 0 < factor)
    (h : ¬Fits value factor) :
    (value.scale factor).asUsize = 0 ∨ (value.scale factor).asUsize = 2 ^ 64 - 1 := by
  cases value with
  | nan => exact .inl rfl
  | inf negative => cases negative <;> simp [Float64.scale, Float64.asUsize]
  | finite q =>
    show min (q * factor).floor.toNat (2 ^ 64 - 1) = 0 ∨ min (q * factor).floor.toNat _ = _
    by_cases h0 : 0 ≤ q
    · have hle : (2 ^ 64 : Int) ≤ (q * factor).floor := by
        refine Rat.le_floor_iff.2 (not_lt.1 fun hlt => h ⟨q, rfl, h0, ?_⟩)
        exact_mod_cast hlt
      omega
    · have hlt : (q * factor).floor < (0 : Int) :=
        Rat.floor_lt_iff.2 (by simpa using mul_neg_of_neg_of_pos (not_le.1 h0) hf)
      omega

theorem factor_pos {suffix : String} {factor : Rat} (h : (suffix, factor) ∈ units) :
    0 < factor := by
  have hall : ∀ u ∈ units, 0 < u.2 := by decide +kernel
  exact hall _ h

/-- **Sizes** are read right when they fit: one that does not is cut to the limits of a `usize`. -/
theorem bytesEnv_reads_iff {default : Nat} (h0 : 0 < default) (h1 : default < 2 ^ 64 - 1) :
    Reads env (Size parseF64) key default (bytesEnv parseF64 env key default) ↔
      SizeOk parseF64 env key := by
  rw [bytesEnv]
  cases hopt : optional env key with
  | none =>
    have hun := optional_eq_none_iff.1 hopt
    exact iff_of_true (.of_unset hun) fun raw _ _ hraw => absurd hraw (hun raw)
  | some raw =>
    have hraw := optional_eq_some_iff.1 hopt
    rw [reads_iff hraw]
    dsimp only
    cases hb : parseBytes parseF64 raw with
    | none =>
      have hno : ∀ value factor, ¬Measure parseF64 raw value factor := fun value factor hm => by
        cases hb.symm.trans (parseBytes_iff.2 ⟨value, factor, hm, rfl⟩)
      refine iff_of_true (.inr ⟨fun v hv => ?_, rfl⟩) fun raw' value factor hraw' hm => ?_
      · obtain ⟨value, factor, hm, -⟩ := hv
        exact hno _ _ hm
      · exact absurd (hraw.unique hraw' ▸ hm) (hno _ _)
    | some n =>
      obtain ⟨value, factor, hm, rfl⟩ := parseBytes_iff.1 hb
      rw [Option.getD_some]
      refine ⟨fun h raw' value' factor' hraw' hm' => ?_, fun h => .inl ?_⟩
      · obtain ⟨rfl, rfl⟩ := hm.unique (hraw.unique hraw' ▸ hm')
        rcases h with ⟨q, factor', hm', hq, hlt, -⟩ | ⟨-, hn⟩
        · obtain ⟨rfl, rfl⟩ := hm.unique hm'
          exact ⟨q, rfl, hq, hlt⟩
        · by_contra hfits
          obtain ⟨_, _, -, -, -, hu⟩ := hm
          rcases asUsize_of_not_fits (factor_pos hu) hfits with hz | hz <;> omega
      · obtain ⟨q, rfl, hq, hlt⟩ := h raw value factor hraw hm
        exact ⟨q, factor, hm, hq, hlt, asUsize_of_fits hlt⟩

/-! ## Flags -/

/-- **Flags** are read right when the text is a word for one: any other is `false`. -/
theorem boolEnv_reads_iff : Reads env Word key true (boolEnv env key true) ↔ WordOk env key := by
  rw [boolEnv]
  cases hopt : optional env key with
  | none =>
    have hun := optional_eq_none_iff.1 hopt
    exact iff_of_true (.of_unset hun) fun raw hraw => absurd hraw (hun raw)
  | some raw =>
    have hraw := optional_eq_some_iff.1 hopt
    have hyes : Word raw true ↔ word raw ∈ ["1", "true", "yes", "on"] := Iff.rfl
    rw [reads_iff hraw]
    show Word raw (decide (word raw ∈ ["1", "true", "yes", "on"])) ∨ _ ↔ _
    refine ⟨fun h raw' hraw' => ?_, fun h => .inl ?_⟩
    · obtain rfl := hraw.unique hraw'
      rcases h with h | ⟨hno, hx⟩
      · exact ⟨_, h⟩
      · exact absurd (hyes.2 (of_decide_eq_true hx)) (hno true)
    · obtain ⟨b, hb⟩ := h raw hraw
      cases b with
      | true => rwa [decide_eq_true (hyes.1 hb)]
      | false =>
        have hnot : word raw ∉ ["1", "true", "yes", "on"] := fun hy => by
          have hdisj : ∀ w ∈ ["0", "false", "no", "off"], w ∉ ["1", "true", "yes", "on"] := by
            decide
          exact hdisj _ hb hy
        rwa [decide_eq_false hnot]

end

end Batcher.Settings
