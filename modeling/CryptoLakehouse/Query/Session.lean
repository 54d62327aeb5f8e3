import CryptoLakehouse.Batcher.Settings
import CryptoLakehouse.Query.QualifiedName

/-!
# Two readings of the environment

A tool of this crate opens the catalog twice: `iceberg_session` registers it for its queries, and
`append::open` connects the batcher's sink to it, with the batcher's configuration. Both take the
catalog's properties from the same variables, each in a way of its own.
-/

namespace Query

open Batcher.Settings

/-- Properties of a catalog, as inserted into a map. -/
abbrev Props := List (String × String)

/-! ## The names of the properties -/

def REST_CATALOG_PROP_URI : String := "uri"
def REST_CATALOG_PROP_WAREHOUSE : String := "warehouse"
def S3_ENDPOINT : String := "s3.endpoint"
def S3_REGION : String := "s3.region"
def S3_ACCESS_KEY_ID : String := "s3.access-key-id"
def S3_SECRET_ACCESS_KEY : String := "s3.secret-access-key"
def S3_PATH_STYLE_ACCESS : String := "s3.path-style-access"

/-! ## The session -/

/-- `std::env::var(key).context(..)?` -/
def envVar (env : Env) (key : String) : Except Error String :=
  match env key with
  | some v => .ok v
  | none => .error (.context s!"{key} not set" (.external "environment variable not found"))

/-- The properties in `iceberg_session`. -/
def sessionProps (env : Env) : Except Error Props := do
  let uri := (env "LAKEKEEPER_URI").getD "http://127.0.0.1:8181/catalog"
  let warehouse := (env "LAKEKEEPER_WAREHOUSE").getD "crypto_lakehouse"
  let s3Endpoint := (env "GARAGE_ENDPOINT").getD "http://garage-svc.garage.svc.cluster.local:3900"
  let s3Region := (env "GARAGE_REGION").getD "eu-lambronx-1"
  let accessKey ← envVar env "GARAGE_ACCESS_KEY"
  let secretKey ← envVar env "GARAGE_SECRET_KEY"
  return [
    (REST_CATALOG_PROP_URI, uri),
    (REST_CATALOG_PROP_WAREHOUSE, warehouse),
    (S3_ENDPOINT, s3Endpoint),
    (S3_REGION, s3Region),
    (S3_ACCESS_KEY_ID, accessKey),
    (S3_SECRET_ACCESS_KEY, secretKey),
    (S3_PATH_STYLE_ACCESS, "true")]

/-! ## The sink -/

/-- The configuration in `append::open`. -/
def openConfig (parseF64 : String → Option Float64) (env : Env) (table : String) :
    Except Error IcebergConfig := do
  let name ← checkedQualifiedName table
  let some (namespaceName, table) := splitOnce name
    | throw (.msg "destination must be `<namespace>.<table>`")
  let cfg ← (IcebergConfig.fromEnv parseF64 env).withContext "invalid iceberg configuration"
  return { cfg with namespaceName, table }

def catalogProps (cfg : IcebergConfig) : Props :=
  [(REST_CATALOG_PROP_URI, cfg.uri),
    (REST_CATALOG_PROP_WAREHOUSE, cfg.warehouse),
    (S3_ENDPOINT, cfg.s3Endpoint),
    (S3_REGION, cfg.s3Region),
    (S3_ACCESS_KEY_ID, cfg.s3AccessKeyId),
    (S3_SECRET_ACCESS_KEY, cfg.s3SecretAccessKey),
    (S3_PATH_STYLE_ACCESS, toString cfg.s3PathStyle)] ++
  match cfg.credential with
  | some credential => [("credential", credential)]
  | none => []

end Query
