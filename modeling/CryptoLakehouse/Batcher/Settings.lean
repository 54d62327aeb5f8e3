import Mathlib.Algebra.Ring.Rat
import CryptoLakehouse.Batcher.Accumulator

/-!
# The settings

The batcher's configuration as it is read from the environment (`Config.fromEnv`), and the settings
of the JetStream consumer that follow from it (`consumerConfig`). A panic is the error `.panic`.

A duration is its count of nanoseconds, and a parsed `f64` its value, `Float64`. The `f64` parser is
a parameter.
-/

namespace Batcher.Settings

/-! ## Reading the environment -/

/-- `std::env::var(key).ok()` -/
abbrev Env := String → Option String

/-- Unicode `White_Space`. -/
def isWhitespace (c : Char) : Bool :=
  let n := c.toNat
  (0x9 ≤ n && n ≤ 0xd) || n == 0x20 || n == 0x85 || n == 0xa0 || n == 0x1680 ||
    (0x2000 ≤ n && n ≤ 0x200a) || n == 0x2028 || n == 0x2029 || n == 0x202f || n == 0x205f ||
    n == 0x3000

def trim (s : String) : List Char :=
  ((s.toList.dropWhile isWhitespace).reverse.dropWhile isWhitespace).reverse

/-- A variable that is set and not blank. -/
def optional (env : Env) (key : String) : Option String :=
  (env key).filter fun v => !(trim v).isEmpty

def required (env : Env) (key : String) : Except Error String :=
  match optional env key with
  | some v => .ok v
  | none => .error (.msg s!"{key} not set")

def string (env : Env) (key default : String) : String := (optional env key).getD default

/-- A value that cannot be parsed gives way to the default. -/
def parse {α : Type} (env : Env) (fromStr : String → Option α) (key : String) (default : α) : α :=
  match optional env key with
  | some raw => (fromStr raw).getD default
  | none => default

/-- What follows a plus sign. -/
def stripPlus : List Char → List Char
  | '+' :: digits => digits
  | digits => digits

/-- The parser of the unsigned integers of `bits` bits. -/
def parseUnsigned (bits : Nat) (raw : String) : Option Nat :=
  let digits := stripPlus raw.toList
  let value := digits.foldl (fun n c => 10 * n + (c.toNat - '0'.toNat)) 0
  if !digits.isEmpty && digits.all Char.isDigit && value < 2 ^ bits then some value else none

def usizeEnv (env : Env) (key : String) (default : Nat) : Nat :=
  parse env (parseUnsigned 64) key default

def u32Env (env : Env) (key : String) (default : Nat) : Nat :=
  parse env (parseUnsigned 32) key default

def boolEnv (env : Env) (key : String) (default : Bool) : Bool :=
  match optional env key with
  | some raw =>
    String.ofList ((trim raw).map Char.toLower) ∈ ["1", "true", "yes", "on"]
  | none => default

/-! ## Floats -/

/-- What parsing an `f64` yields. -/
inductive Float64
  | nan
  | inf (negative : Bool)
  | finite (value : Rat)
deriving DecidableEq

/-- `as usize`, which saturates. -/
def Float64.asUsize : Float64 → Nat
  | nan => 0
  | inf negative => if negative then 0 else 2 ^ 64 - 1
  | finite value => min value.floor.toNat (2 ^ 64 - 1)

/-- A product with a power of two, which is exact. -/
def Float64.scale (factor : Rat) : Float64 → Float64
  | nan => nan
  | inf negative => inf negative
  | finite value => finite (value * factor)

/-- The end of `Duration`: 2⁶⁴ seconds. -/
def durationEnd : Nat := 2 ^ 64 * 1000000000

/-- The nearest integer, of two the even one. -/
def roundTiesEven (q : Rat) : Int :=
  let rest := q - q.floor
  if rest < 1 / 2 then q.floor
  else if 1 / 2 < rest then q.floor + 1
  else if q.floor % 2 = 0 then q.floor else q.floor + 1

/-- `Duration::from_secs_f64` -/
def fromSecsF64 : Float64 → Except Error Nat
  | .finite value =>
    if value < 0 then
      .error (.panic "cannot convert float seconds to Duration: value is negative")
    else if value < 2 ^ 64 then .ok (roundTiesEven (value * 1000000000)).toNat
    else .error (.panic "cannot convert float seconds to Duration: value is either too big or NaN")
  | .inf true => .error (.panic "cannot convert float seconds to Duration: value is negative")
  | _ => .error (.panic "cannot convert float seconds to Duration: value is either too big or NaN")

section
variable (parseF64 : String → Option Float64) (env : Env)

def seconds (key : String) (default : Rat) : Except Error Nat :=
  fromSecsF64 (parse env parseF64 key (.finite default))

/-- A digit or a dot. -/
def isNumeric (c : Char) : Bool := c.isDigit || c == '.'

/-- The factor of a binary suffix. -/
def factorOf (suffix : String) : Option Rat :=
  if suffix ∈ ["", "b"] then some 1
  else if suffix ∈ ["k", "kb", "kib"] then some 1024
  else if suffix ∈ ["m", "mb", "mib"] then some (1024 * 1024)
  else if suffix ∈ ["g", "gb", "gib"] then some (1024 * 1024 * 1024)
  else none

/-- A byte count, with a binary suffix or without. -/
def parseBytes (raw : String) : Option Nat := do
  let raw := trim raw
  let (num, mul) := if raw.head? = some '.' then (raw, []) else raw.span isNumeric
  let value ← parseF64 (String.ofList num)
  let factor ← factorOf (String.ofList ((trim (String.ofList mul)).map Char.toLower))
  return (value.scale factor).asUsize

def bytesEnv (key : String) (default : Nat) : Nat :=
  match optional env key with
  | some raw => (parseBytes parseF64 raw).getD default
  | none => default

end

/-! ## The configuration -/

structure NatsConfig where
  url : String
  stream : String
  subjectFilter : String
  consumer : String
  ackWait : Nat
  fetchBatch : Nat
  fetchExpires : Nat

structure IcebergConfig where
  uri : String
  warehouse : String
  credential : Option String
  namespaceName : String
  table : String
  s3Endpoint : String
  s3Region : String
  s3AccessKeyId : String
  s3SecretAccessKey : String
  s3PathStyle : Bool
  parquetCompression : String
  targetFileSize : Nat
  commitRetries : Nat

structure Config where
  nats : NatsConfig
  iceberg : IcebergConfig
  batch : BatchConfig

section
variable (parseF64 : String → Option Float64) (env : Env)

def IcebergConfig.fromEnv : Except Error IcebergConfig := do
  let s3AccessKeyId ← required env "GARAGE_ACCESS_KEY"
  let s3SecretAccessKey ← required env "GARAGE_SECRET_KEY"
  return {
    uri := string env "LAKEKEEPER_URI"
      "http://lakekeeper-lakekeeper.default.svc.cluster.local:8181/catalog"
    warehouse := string env "LAKEKEEPER_WAREHOUSE" "crypto_lakehouse"
    credential := optional env "LAKEKEEPER_CREDENTIAL"
    namespaceName := string env "ICEBERG_NAMESPACE" "trades"
    table := string env "ICEBERG_TABLE" "trades"
    s3Endpoint := string env "GARAGE_ENDPOINT" "http://garage-svc.garage.svc.cluster.local:3900"
    s3Region := string env "GARAGE_REGION" "eu-lambronx-1"
    s3AccessKeyId
    s3SecretAccessKey
    s3PathStyle := boolEnv env "GARAGE_PATH_STYLE" true
    parquetCompression := string env "ICEBERG_PARQUET_COMPRESSION" "zstd"
    targetFileSize := bytesEnv parseF64 env "ICEBERG_TARGET_FILE_SIZE" (128 * 1024 * 1024)
    commitRetries := u32Env env "COMMIT_RETRIES" 5 }

def Config.fromEnv : Except Error Config := do
  let url ← required env "NATS_URL"
  let ackWait ← seconds parseF64 env "BATCHER_ACK_WAIT_SECS" 300
  let fetchExpires ← seconds parseF64 env "BATCHER_FETCH_EXPIRES_SECS" 2
  let iceberg ← IcebergConfig.fromEnv parseF64 env
  let flushInterval ← seconds parseF64 env "BATCH_FLUSH_INTERVAL_SECS" 30
  return {
    nats := {
      url
      stream := string env "TRADES_STREAM" "tradesstream"
      subjectFilter := string env "TRADES_SUBJECT_FILTER" "exchange.*"
      consumer := string env "BATCHER_CONSUMER" "iceberg-batcher"
      ackWait
      fetchBatch := usizeEnv env "BATCHER_FETCH_BATCH" 2000
      fetchExpires }
    iceberg
    batch := {
      maxRecords := usizeEnv env "BATCH_MAX_RECORDS" 50000
      maxBytes := bytesEnv parseF64 env "BATCH_MAX_BYTES" (32 * 1024 * 1024)
      flushInterval
      dedup := boolEnv env "BATCH_DEDUP" true } }

end

/-! ## The consumer -/

/-- `Duration * u32` -/
def mulDuration (d k : Nat) : Except Error Nat :=
  if d * k < durationEnd then .ok (d * k)
  else .error (.panic "overflow when multiplying duration by scalar")

/-- `Duration + Duration` -/
def addDuration (d d' : Nat) : Except Error Nat :=
  if d + d' < durationEnd then .ok (d + d')
  else .error (.panic "overflow when adding durations")

def effectiveAckWait (configured flushInterval : Nat) : Except Error Nat := do
  let quadruple ← mulDuration flushInterval 4
  let floor ← addDuration quadruple 10000000000
  return if configured < floor then floor else configured

/-- `n * 2` on `usize`, in a build with overflow checks or without. -/
def double (checks : Bool) (n : Nat) : Except Error Nat :=
  if n * 2 < 2 ^ 64 then .ok (n * 2)
  else if checks then .error (.panic "attempt to multiply with overflow")
  else .ok (n * 2 % 2 ^ 64)

/-- The fields of the pull consumer's configuration that come from the settings. -/
structure ConsumerConfig where
  name : Option String
  durableName : Option String
  filterSubject : String
  ackWait : Nat
  maxDeliver : Int64
  maxAckPending : Int64

/-- The configuration that `ensure_consumer` builds. -/
def consumerConfig (checks : Bool) (cfg : NatsConfig) (batch : BatchConfig) :
    Except Error ConsumerConfig := do
  let records ← double checks batch.maxRecords
  let fetched ← double checks cfg.fetchBatch
  let ackWait ← effectiveAckWait cfg.ackWait batch.flushInterval
  return {
    name := some cfg.consumer
    durableName := some cfg.consumer
    filterSubject := cfg.subjectFilter
    ackWait
    maxDeliver := -1
    maxAckPending := .ofNat (max records fetched) }

end Batcher.Settings
