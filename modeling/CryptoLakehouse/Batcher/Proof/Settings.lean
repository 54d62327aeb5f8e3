import CryptoLakehouse.Batcher.Proof.Values

/-!
# Which environments the batcher can be started in

`AsSet` says what the fields of a configuration should be, and `ConsumerOk` what the consumer's
settings should be.

* `consumerOk_iff` — the consumer's settings are right when no product in them overflows.
* `fromEnv_built` — a configuration that is built is right but for its sizes and flags.
* `safe_iff` — when everything is right, or a variable that is missing is reported.
-/

namespace Batcher.Settings

/-! ## What should be read -/

section
variable (parseF64 : String → Option Float64) (env : Env)

structure NatsConfig.AsSet (cfg : NatsConfig) : Prop where
  url : HasText env "NATS_URL" cfg.url
  stream : Reads env Plain "TRADES_STREAM" "tradesstream" cfg.stream
  subjectFilter : Reads env Plain "TRADES_SUBJECT_FILTER" "exchange.*" cfg.subjectFilter
  consumer : Reads env Plain "BATCHER_CONSUMER" "iceberg-batcher" cfg.consumer
  ackWait : Reads env (Seconds parseF64) "BATCHER_ACK_WAIT_SECS" 300000000000 cfg.ackWait
  fetchBatch : Reads env (Numeral 64) "BATCHER_FETCH_BATCH" 2000 cfg.fetchBatch
  fetchExpires : Reads env (Seconds parseF64) "BATCHER_FETCH_EXPIRES_SECS" 2000000000 cfg.fetchExpires

structure IcebergConfig.AsSet (cfg : IcebergConfig) : Prop where
  uri : Reads env Plain "LAKEKEEPER_URI"
    "http://lakekeeper-lakekeeper.default.svc.cluster.local:8181/catalog" cfg.uri
  warehouse : Reads env Plain "LAKEKEEPER_WAREHOUSE" "crypto_lakehouse" cfg.warehouse
  credential : ∀ raw, cfg.credential = some raw ↔ HasText env "LAKEKEEPER_CREDENTIAL" raw
  namespaceName : Reads env Plain "ICEBERG_NAMESPACE" "trades" cfg.namespaceName
  table : Reads env Plain "ICEBERG_TABLE" "trades" cfg.table
  s3Endpoint : Reads env Plain "GARAGE_ENDPOINT" "http://garage-svc.garage.svc.cluster.local:3900"
    cfg.s3Endpoint
  s3Region : Reads env Plain "GARAGE_REGION" "eu-lambronx-1" cfg.s3Region
  s3AccessKeyId : HasText env "GARAGE_ACCESS_KEY" cfg.s3AccessKeyId
  s3SecretAccessKey : HasText env "GARAGE_SECRET_KEY" cfg.s3SecretAccessKey
  s3PathStyle : Reads env Word "GARAGE_PATH_STYLE" true cfg.s3PathStyle
  parquetCompression : Reads env Plain "ICEBERG_PARQUET_COMPRESSION" "zstd" cfg.parquetCompression
  targetFileSize : Reads env (Size parseF64) "ICEBERG_TARGET_FILE_SIZE" 134217728 cfg.targetFileSize
  commitRetries : Reads env (Numeral 32) "COMMIT_RETRIES" 5 cfg.commitRetries

/-- Each field is what its variable stands for, or its default. -/
structure Config.AsSet (cfg : Config) : Prop where
  nats : cfg.nats.AsSet parseF64 env
  iceberg : cfg.iceberg.AsSet parseF64 env
  maxRecords : Reads env (Numeral 64) "BATCH_MAX_RECORDS" 50000 cfg.batch.maxRecords
  maxBytes : Reads env (Size parseF64) "BATCH_MAX_BYTES" 33554432 cfg.batch.maxBytes
  flushInterval : Reads env (Seconds parseF64) "BATCH_FLUSH_INTERVAL_SECS" 30000000000
    cfg.batch.flushInterval
  dedup : Reads env Word "BATCH_DEDUP" true cfg.batch.dedup

/-- The consumer's settings can be computed: `ack_wait` is at least four flush intervals and ten
seconds, and `max_ack_pending` holds two batches and two fetches. -/
def ConsumerOk (checks : Bool) (cfg : Config) : Prop :=
  ∃ c, consumerConfig checks cfg.nats cfg.batch = .ok c ∧
    c.ackWait = max cfg.nats.ackWait (4 * cfg.batch.flushInterval + 10000000000) ∧
    0 < c.maxAckPending.toInt ∧ 2 * cfg.batch.maxRecords ≤ c.maxAckPending.toInt ∧
    2 * cfg.nats.fetchBatch ≤ c.maxAckPending.toInt

/-- A missing variable is reported, or the configuration is as set and the consumer's settings are
as they should be. -/
def Safe (checks : Bool) : Prop :=
  (∃ key ∈ ["NATS_URL", "GARAGE_ACCESS_KEY", "GARAGE_SECRET_KEY"], Unset env key ∧
    Config.fromEnv parseF64 env = .error (.msg s!"{key} not set")) ∨
  ∃ cfg, Config.fromEnv parseF64 env = .ok cfg ∧ cfg.AsSet parseF64 env ∧ ConsumerOk checks cfg

/-! ## When it is -/

/-- Nothing in the consumer's settings overflows. -/
structure Limits (maxRecords fetchBatch flushInterval : Nat) : Prop where
  ackWait : 4 * flushInterval + 10000000000 < durationEnd
  positive : 0 < max maxRecords fetchBatch
  records : maxRecords < 2 ^ 62
  fetched : fetchBatch < 2 ^ 62

/-- The settings of a configuration that is built are usable. -/
structure SettingsOk : Prop where
  flushInterval : SecondsOk parseF64 env "BATCH_FLUSH_INTERVAL_SECS"
  pathStyle : WordOk env "GARAGE_PATH_STYLE"
  dedup : WordOk env "BATCH_DEDUP"
  targetFileSize : SizeOk parseF64 env "ICEBERG_TARGET_FILE_SIZE"
  maxBytes : SizeOk parseF64 env "BATCH_MAX_BYTES"
  limits : ∀ records fetched flush, Reads env (Numeral 64) "BATCH_MAX_RECORDS" 50000 records →
    Reads env (Numeral 64) "BATCHER_FETCH_BATCH" 2000 fetched →
    Reads env (Seconds parseF64) "BATCH_FLUSH_INTERVAL_SECS" 30000000000 flush →
    Limits records fetched flush

end

section
variable {parseF64 : String → Option Float64} {env : Env} {checks : Bool}
  {n flush configured : Nat} {cfg : Config}

/-! ### The consumer -/

theorem checked_ok_iff {c : Prop} [Decidable c] {a b : Nat} {e : Error} :
    (if c then .ok a else .error e : Except Error Nat) = .ok b ↔ c ∧ b = a := by
  split
  · rename_i h
    simp [h, eq_comm]
  · rename_i h
    simp [h]

theorem effectiveAckWait_ok_iff {d : Nat} : effectiveAckWait configured flush = .ok d ↔
    4 * flush + 10000000000 < durationEnd ∧ d = max configured (4 * flush + 10000000000) := by
  unfold effectiveAckWait mulDuration addDuration
  generalize durationEnd = top
  simp only [Except.bind_eq_ok, checked_ok_iff]
  refine ⟨fun hx => ?_, fun hx => ?_⟩
  · obtain ⟨_, ⟨-, rfl⟩, _, ⟨hlt, rfl⟩, hd⟩ := hx
    cases hd
    refine ⟨by omega, ?_⟩
    split <;> omega
  · obtain ⟨hlt, rfl⟩ := hx
    refine ⟨_, ⟨by omega, rfl⟩, _, ⟨by omega, rfl⟩, congrArg Except.ok ?_⟩
    split <;> omega

/-- A double that fits is the product, in either build. -/
theorem double_ok (h : n < 2 ^ 62) : double checks n = .ok (2 * n) := by
  rw [double, if_pos (by omega), Nat.mul_comm]

/-- **The consumer's settings** are right when they are in their limits. -/
theorem consumerOk_iff : ConsumerOk checks cfg ↔
    Limits cfg.batch.maxRecords cfg.nats.fetchBatch cfg.batch.flushInterval := by
  unfold ConsumerOk consumerConfig
  simp only [Except.bind_eq_ok]
  refine ⟨fun hx => ?_, fun h => ?_⟩
  · obtain ⟨c, ⟨records, hr, fetched, hf, ackWait, ha, hc⟩, -, hpos, hle, hle'⟩ := hx
    have hlt := c.maxAckPending.toInt_lt
    have hrec : cfg.batch.maxRecords < 2 ^ 62 := by omega
    have hfet : cfg.nats.fetchBatch < 2 ^ 62 := by omega
    rw [double_ok hrec] at hr
    rw [double_ok hfet] at hf
    cases hr
    cases hf
    cases hc
    rw [Int64.toInt_ofNat_of_lt (by omega)] at hpos
    exact ⟨(effectiveAckWait_ok_iff.1 ha).1, by omega, hrec, hfet⟩
  · have hrec := h.records
    have hfet := h.fetched
    have hpos := h.positive
    refine ⟨_, ⟨_, double_ok hrec, _, double_ok hfet, _,
      effectiveAckWait_ok_iff.2 ⟨h.ackWait, rfl⟩, rfl⟩, rfl, ?_, ?_, ?_⟩
    all_goals
      dsimp only
      rw [Int64.toInt_ofNat_of_lt (by omega)]
      omega

/-! ### The configuration -/

section
variable {url id secret : String} {ackWait fetchExpires flushInterval : Nat} {e : Error}

theorem fromEnv_unset (h : optional env "NATS_URL" = none) :
    Config.fromEnv parseF64 env = .error (.msg "NATS_URL not set") := by
  rw [Config.fromEnv, required, h]
  rfl

theorem fromEnv_ackWait_error (h : optional env "NATS_URL" = some url)
    (ha : seconds parseF64 env "BATCHER_ACK_WAIT_SECS" 300 = .error e) :
    Config.fromEnv parseF64 env = .error e := by
  rw [Config.fromEnv, required, h, ha]
  rfl

theorem fromEnv_fetchExpires_error (h : optional env "NATS_URL" = some url)
    (ha : seconds parseF64 env "BATCHER_ACK_WAIT_SECS" 300 = .ok ackWait)
    (he : seconds parseF64 env "BATCHER_FETCH_EXPIRES_SECS" 2 = .error e) :
    Config.fromEnv parseF64 env = .error e := by
  rw [Config.fromEnv, required, h, ha, he]
  rfl

theorem fromEnv_accessKey_unset (h : optional env "NATS_URL" = some url)
    (ha : seconds parseF64 env "BATCHER_ACK_WAIT_SECS" 300 = .ok ackWait)
    (he : seconds parseF64 env "BATCHER_FETCH_EXPIRES_SECS" 2 = .ok fetchExpires)
    (hi : optional env "GARAGE_ACCESS_KEY" = none) :
    Config.fromEnv parseF64 env = .error (.msg "GARAGE_ACCESS_KEY not set") := by
  rw [Config.fromEnv, IcebergConfig.fromEnv, required, required, h, ha, he, hi]
  rfl

theorem fromEnv_secretKey_unset (h : optional env "NATS_URL" = some url)
    (ha : seconds parseF64 env "BATCHER_ACK_WAIT_SECS" 300 = .ok ackWait)
    (he : seconds parseF64 env "BATCHER_FETCH_EXPIRES_SECS" 2 = .ok fetchExpires)
    (hi : optional env "GARAGE_ACCESS_KEY" = some id)
    (hs : optional env "GARAGE_SECRET_KEY" = none) :
    Config.fromEnv parseF64 env = .error (.msg "GARAGE_SECRET_KEY not set") := by
  rw [Config.fromEnv, IcebergConfig.fromEnv, required, required, required, h, ha, he, hi, hs]
  rfl

/-- Nothing required is missing, and the source's durations are read. -/
structure Given (parseF64 : String → Option Float64) (env : Env) (url id secret : String)
    (ackWait fetchExpires : Nat) : Prop where
  url : optional env "NATS_URL" = some url
  ackWait : seconds parseF64 env "BATCHER_ACK_WAIT_SECS" 300 = .ok ackWait
  fetchExpires : seconds parseF64 env "BATCHER_FETCH_EXPIRES_SECS" 2 = .ok fetchExpires
  accessKey : optional env "GARAGE_ACCESS_KEY" = some id
  secretKey : optional env "GARAGE_SECRET_KEY" = some secret

theorem fromEnv_flushInterval_error (h : Given parseF64 env url id secret ackWait fetchExpires)
    (hf : seconds parseF64 env "BATCH_FLUSH_INTERVAL_SECS" 30 = .error e) :
    Config.fromEnv parseF64 env = .error e := by
  rw [Config.fromEnv, IcebergConfig.fromEnv, required, required, required, h.url, h.ackWait,
    h.fetchExpires, h.accessKey, h.secretKey, hf]
  rfl

/-- **A configuration that is built** is as set where its sizes and flags can be used. -/
theorem fromEnv_built (h : Given parseF64 env url id secret ackWait fetchExpires)
    (hf : seconds parseF64 env "BATCH_FLUSH_INTERVAL_SECS" 30 = .ok flushInterval)
    (hack : Reads env (Seconds parseF64) "BATCHER_ACK_WAIT_SECS" 300000000000 ackWait)
    (hexp : Reads env (Seconds parseF64) "BATCHER_FETCH_EXPIRES_SECS" 2000000000 fetchExpires)
    (hflush : Reads env (Seconds parseF64) "BATCH_FLUSH_INTERVAL_SECS" 30000000000 flushInterval) :
    ∃ cfg, Config.fromEnv parseF64 env = .ok cfg ∧
      (cfg.AsSet parseF64 env ↔ WordOk env "GARAGE_PATH_STYLE" ∧ WordOk env "BATCH_DEDUP" ∧
        SizeOk parseF64 env "ICEBERG_TARGET_FILE_SIZE" ∧ SizeOk parseF64 env "BATCH_MAX_BYTES") ∧
      cfg.batch.maxRecords = usizeEnv env "BATCH_MAX_RECORDS" 50000 ∧
      cfg.nats.fetchBatch = usizeEnv env "BATCHER_FETCH_BATCH" 2000 ∧
      cfg.batch.flushInterval = flushInterval := by
  rw [Config.fromEnv, IcebergConfig.fromEnv, required, required, required, h.url, h.ackWait,
    h.fetchExpires, h.accessKey, h.secretKey, hf]
  refine ⟨_, rfl, ⟨fun hset => ⟨?_, ?_, ?_, ?_⟩, fun hok => ?_⟩, rfl, rfl, rfl⟩
  · exact boolEnv_reads_iff.1 hset.iceberg.s3PathStyle
  · exact boolEnv_reads_iff.1 hset.dedup
  · exact (bytesEnv_reads_iff (by decide) (by decide)).1 hset.iceberg.targetFileSize
  · exact (bytesEnv_reads_iff (by decide) (by decide)).1 hset.maxBytes
  · obtain ⟨hstyle, hdedup, hsize, hbytes⟩ := hok
    exact {
      nats := {
        url := optional_eq_some_iff.1 h.url
        stream := string_reads env _ _
        subjectFilter := string_reads env _ _
        consumer := string_reads env _ _
        ackWait := hack
        fetchBatch := usizeEnv_reads env _ _
        fetchExpires := hexp }
      iceberg := {
        uri := string_reads env _ _
        warehouse := string_reads env _ _
        credential := fun _ => optional_eq_some_iff
        namespaceName := string_reads env _ _
        table := string_reads env _ _
        s3Endpoint := string_reads env _ _
        s3Region := string_reads env _ _
        s3AccessKeyId := optional_eq_some_iff.1 h.accessKey
        s3SecretAccessKey := optional_eq_some_iff.1 h.secretKey
        s3PathStyle := boolEnv_reads_iff.2 hstyle
        parquetCompression := string_reads env _ _
        targetFileSize := (bytesEnv_reads_iff (by decide) (by decide)).2 hsize
        commitRetries := u32Env_reads env _ _ }
      maxRecords := usizeEnv_reads env _ _
      maxBytes := (bytesEnv_reads_iff (by decide) (by decide)).2 hbytes
      flushInterval := hflush
      dedup := boolEnv_reads_iff.2 hdedup }

end

theorem not_safe_of_panic {text : String}
    (h : Config.fromEnv parseF64 env = .error (.panic text)) : ¬Safe parseF64 env checks := by
  intro hs
  rcases hs with ⟨key, -, -, he⟩ | ⟨cfg, he, -⟩
  · cases h.symm.trans he
  · cases h.symm.trans he

theorem safe_of_unset {key : String}
    (hk : key ∈ ["NATS_URL", "GARAGE_ACCESS_KEY", "GARAGE_SECRET_KEY"]) (hu : Unset env key)
    (h : Config.fromEnv parseF64 env = .error (.msg s!"{key} not set")) :
    Safe parseF64 env checks := .inl ⟨key, hk, hu, h⟩

theorem safe_iff_of_ok (h : Config.fromEnv parseF64 env = .ok cfg) :
    Safe parseF64 env checks ↔ cfg.AsSet parseF64 env ∧ ConsumerOk checks cfg := by
  refine ⟨fun hs => ?_, fun hs => .inr ⟨cfg, h, hs⟩⟩
  rcases hs with ⟨key, -, -, he⟩ | ⟨cfg', he, hset, hc⟩
  · cases h.symm.trans he
  · obtain rfl := Except.ok.inj (h.symm.trans he)
    exact ⟨hset, hc⟩

end

/-! ## The result -/

/-- **When the batcher can be started**: the address is missing, which is reported; or the two
durations of the source can be used, and a key of the table is missing, which is reported, or the
rest can be used too: the third duration, the sizes and the flags, and the consumer's settings are
in their limits. -/
theorem safe_iff (parseF64 : String → Option Float64) (env : Env) (checks : Bool) :
    Safe parseF64 env checks ↔ Unset env "NATS_URL" ∨
      (SecondsOk parseF64 env "BATCHER_ACK_WAIT_SECS" ∧
        SecondsOk parseF64 env "BATCHER_FETCH_EXPIRES_SECS" ∧
        (Unset env "GARAGE_ACCESS_KEY" ∨ Unset env "GARAGE_SECRET_KEY" ∨
          SettingsOk parseF64 env)) := by
  cases hurl : optional env "NATS_URL" with
  | none =>
    have hun := optional_eq_none_iff.1 hurl
    exact iff_of_true (safe_of_unset (by simp) hun (fromEnv_unset hurl)) (.inl hun)
  | some url =>
    have hset : ∀ {key raw}, optional env key = some raw → ¬Unset env key := fun hk hun =>
      hun _ (optional_eq_some_iff.1 hk)
    simp only [hset hurl, false_or]
    by_cases hack : SecondsOk parseF64 env "BATCHER_ACK_WAIT_SECS"
    swap
    · obtain ⟨text, ha⟩ := seconds_panics hack
      exact iff_of_false (not_safe_of_panic (fromEnv_ackWait_error hurl ha)) fun hx => hack hx.1
    obtain ⟨ackWait, ha, hra⟩ := seconds_reads 300 300000000000 (by decide +kernel) hack
    by_cases hexp : SecondsOk parseF64 env "BATCHER_FETCH_EXPIRES_SECS"
    swap
    · obtain ⟨text, he⟩ := seconds_panics hexp
      exact iff_of_false (not_safe_of_panic (fromEnv_fetchExpires_error hurl ha he))
        fun hx => hexp hx.2.1
    obtain ⟨fetchExpires, he, hre⟩ := seconds_reads 2 2000000000 (by decide +kernel) hexp
    simp only [hack, hexp, true_and]
    cases hid : optional env "GARAGE_ACCESS_KEY" with
    | none =>
      have hun := optional_eq_none_iff.1 hid
      exact iff_of_true (safe_of_unset (by simp) hun (fromEnv_accessKey_unset hurl ha he hid))
        (.inl hun)
    | some id =>
      cases hsec : optional env "GARAGE_SECRET_KEY" with
      | none =>
        have hun := optional_eq_none_iff.1 hsec
        exact iff_of_true
          (safe_of_unset (by simp) hun (fromEnv_secretKey_unset hurl ha he hid hsec))
          (.inr (.inl hun))
      | some secret =>
        have hgiven : Given parseF64 env url id secret ackWait fetchExpires :=
          ⟨hurl, ha, he, hid, hsec⟩
        simp only [hset hid, hset hsec, false_or]
        by_cases hflush : SecondsOk parseF64 env "BATCH_FLUSH_INTERVAL_SECS"
        swap
        · obtain ⟨text, hf⟩ := seconds_panics hflush
          exact iff_of_false (not_safe_of_panic (fromEnv_flushInterval_error hgiven hf))
            fun hx => hflush hx.flushInterval
        obtain ⟨flushInterval, hf, hrf⟩ :=
          seconds_reads 30 30000000000 (by decide +kernel) hflush
        obtain ⟨cfg, hcfg, hasset, hrec, hfet, hint⟩ := fromEnv_built hgiven hf hra hre hrf
        rw [safe_iff_of_ok hcfg, hasset, consumerOk_iff, hrec, hfet, hint]
        refine ⟨fun hx => ?_, fun hx => ?_⟩
        · obtain ⟨⟨hstyle, hdedup, hsize, hbytes⟩, hlim⟩ := hx
          refine ⟨hflush, hstyle, hdedup, hsize, hbytes, fun records fetched flush hr hf hfl => ?_⟩
          rw [hr.unique (usizeEnv_reads env _ _) fun _ _ _ => Numeral.unique,
            hf.unique (usizeEnv_reads env _ _) fun _ _ _ => Numeral.unique,
            hfl.unique hrf fun _ _ _ => Seconds.unique]
          exact hlim
        · exact ⟨⟨hx.pathStyle, hx.dedup, hx.targetFileSize, hx.maxBytes⟩,
            hx.limits _ _ _ (usizeEnv_reads env _ _) (usizeEnv_reads env _ _) hrf⟩

/-- An ack wait of minus one second; the rest is as by default. -/
def negativeAckWait (key : String) : Option String :=
  if key = "NATS_URL" then some "nats://127.0.0.1:4222"
  else if key = "GARAGE_ACCESS_KEY" then some "garage"
  else if key = "GARAGE_SECRET_KEY" then some "garage"
  else if key = "BATCHER_ACK_WAIT_SECS" then some "-1"
  else none

/-- The one number in that environment. -/
def parseMinusOne (raw : String) : Option Float64 :=
  if raw = "-1" then some (.finite (-1)) else none

/-- It does not give way to the default: `from_env` panics. -/
theorem negative_ack_wait_panics : ¬Safe parseMinusOne negativeAckWait false := by
  have hurl : optional negativeAckWait "NATS_URL" = some "nats://127.0.0.1:4222" := by
    decide +kernel
  have hack : seconds parseMinusOne negativeAckWait "BATCHER_ACK_WAIT_SECS" 300 =
      .error (.panic "cannot convert float seconds to Duration: value is negative") := by
    decide +kernel
  exact not_safe_of_panic (fromEnv_ackWait_error hurl hack)

end Batcher.Settings
