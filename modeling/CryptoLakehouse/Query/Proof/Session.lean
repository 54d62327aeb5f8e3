import CryptoLakehouse.Query.Proof.QualifiedName
import CryptoLakehouse.Query.Session

/-!
# When a tool reads the catalog it writes to

`iceberg_session` takes a variable as it is and `IcebergConfig::from_env` takes a blank one for unset;
they differ in the default of `LAKEKEEPER_URI`, and only the second knows `GARAGE_PATH_STYLE` and
`LAKEKEEPER_CREDENTIAL`.

* `getD_eq_string_iff`, `getD_eq_string_iff_of_ne` — the two readings of one variable.
* `one_catalog_iff` — the environments that give a tool's queries and its sink the same catalog.
-/

namespace Query

open Batcher.Settings

section
variable {env : Env} {key default default' v : String}

/-- A text that counts as unset. -/
def Blank (v : String) : Prop := (trim v).isEmpty = true

instance decidableBlank : DecidablePred Blank := fun v =>
  inferInstanceAs (Decidable ((trim v).isEmpty = true))

theorem optional_unset (he : env key = none) : optional env key = none := by
  unfold Batcher.Settings.optional
  rw [he]
  rfl

theorem optional_of_blank (he : env key = some v) (hv : Blank v) : optional env key = none := by
  unfold Batcher.Settings.optional
  rw [he, Option.filter_some, if_neg (by rw [hv]; decide)]

theorem optional_of_not_blank (he : env key = some v) (hv : ¬Blank v) : optional env key = some v := by
  unfold Batcher.Settings.optional
  rw [he, Option.filter_some, if_pos (by rw [Bool.eq_false_of_not_eq_true hv]; rfl)]

theorem optional_eq_some : optional env key = some v ↔ env key = some v ∧ ¬Blank v := by
  cases he : env key with
  | none => simp [optional_unset he]
  | some u =>
    by_cases hu : Blank u
    · rw [optional_of_blank he hu]
      refine ⟨fun h => (nomatch h), fun h => ?_⟩
      obtain ⟨hv, hn⟩ := h
      cases hv
      exact absurd hu hn
    · rw [optional_of_not_blank he hu]
      refine ⟨fun h => ⟨h, ?_⟩, fun h => h.1⟩
      cases h
      exact hu

/-- A variable that is set reads as it is exactly when its text is not blank. -/
theorem eq_string_iff (he : env key = some v) (hd : ¬Blank default) :
    v = string env key default ↔ optional env key = some v := by
  unfold string
  by_cases hv : Blank v
  · rw [optional_of_blank he hv]
    refine ⟨fun h => ?_, fun h => nomatch h⟩
    cases h
    exact absurd hv hd
  · rw [optional_of_not_blank he hv]
    exact ⟨fun _ => rfl, fun _ => rfl⟩

/-- With one default, the readings of a variable agree unless it is set to a blank text. -/
theorem getD_eq_string_iff (hd : ¬Blank default) :
    (env key).getD default = string env key default ↔ optional env key = env key := by
  cases he : env key with
  | none => simp [string, optional_unset he]
  | some v => exact eq_string_iff he hd

/-- With two defaults, they agree when it is set and not blank. -/
theorem getD_eq_string_iff_of_ne (hd : ¬Blank default') (hne : default ≠ default') :
    (env key).getD default = string env key default' ↔ (optional env key).isSome := by
  cases he : env key with
  | none =>
    rw [string, optional_unset he]
    exact ⟨fun h => absurd h hne, fun h => nomatch h⟩
  | some v =>
    refine (eq_string_iff he hd).trans ⟨fun h => h ▸ rfl, fun h => ?_⟩
    obtain ⟨u, hu⟩ := Option.isSome_iff_exists.1 h
    rw [hu, ← he, (optional_eq_some.1 hu).1]

end

section
variable {parseF64 : String → Option Float64} {env : Env} {props : Props} {cfg : IcebergConfig}
  {table name : String}

/-- The environments under which both readings succeed and agree. -/
structure OneCatalog (env : Env) : Prop where
  uri : (optional env "LAKEKEEPER_URI").isSome
  warehouse : optional env "LAKEKEEPER_WAREHOUSE" = env "LAKEKEEPER_WAREHOUSE"
  endpoint : optional env "GARAGE_ENDPOINT" = env "GARAGE_ENDPOINT"
  region : optional env "GARAGE_REGION" = env "GARAGE_REGION"
  accessKey : (optional env "GARAGE_ACCESS_KEY").isSome
  secretKey : (optional env "GARAGE_SECRET_KEY").isSome
  pathStyle : boolEnv env "GARAGE_PATH_STYLE" true = true
  credential : optional env "LAKEKEEPER_CREDENTIAL" = none

/-- The properties of a catalog, each in its place. -/
def propsOf (uri warehouse endpoint region accessKey secretKey pathStyle : String) : Props :=
  [(REST_CATALOG_PROP_URI, uri), (REST_CATALOG_PROP_WAREHOUSE, warehouse), (S3_ENDPOINT, endpoint),
    (S3_REGION, region), (S3_ACCESS_KEY_ID, accessKey), (S3_SECRET_ACCESS_KEY, secretKey),
    (S3_PATH_STYLE_ACCESS, pathStyle)]

theorem sessionProps_eq_ok : sessionProps env = .ok props ↔ ∃ accessKey secretKey,
    env "GARAGE_ACCESS_KEY" = some accessKey ∧ env "GARAGE_SECRET_KEY" = some secretKey ∧
    props = propsOf ((env "LAKEKEEPER_URI").getD "http://127.0.0.1:8181/catalog")
      ((env "LAKEKEEPER_WAREHOUSE").getD "crypto_lakehouse")
      ((env "GARAGE_ENDPOINT").getD "http://garage-svc.garage.svc.cluster.local:3900")
      ((env "GARAGE_REGION").getD "eu-lambronx-1") accessKey secretKey "true" := by
  unfold sessionProps envVar
  cases env "GARAGE_ACCESS_KEY" <;> cases env "GARAGE_SECRET_KEY" <;>
    simp [bind, Except.bind, pure, Except.pure, propsOf, eq_comm]

/-- What a sink is opened with. -/
theorem openConfig_eq_ok (h : checkedQualifiedName table = .ok name) :
    openConfig parseF64 env table = .ok cfg ↔ ∃ cfg₀ d, IcebergConfig.fromEnv parseF64 env = .ok cfg₀ ∧
      splitOnce table = some d ∧ cfg = { cfg₀ with namespaceName := d.1, table := d.2 } := by
  obtain ⟨rfl, ns, tb, ha⟩ := accepted_of_checked h
  simp only [openConfig, h, bind, Except.bind, ha.splitOnce]
  cases IcebergConfig.fromEnv parseF64 env with
  | error e => simp [Except.withContext]
  | ok cfg₀ => simp [Except.withContext, pure, Except.pure, eq_comm]

theorem fromEnv_eq_ok : (∃ cfg, IcebergConfig.fromEnv parseF64 env = .ok cfg) ↔
    (optional env "GARAGE_ACCESS_KEY").isSome ∧ (optional env "GARAGE_SECRET_KEY").isSome := by
  unfold IcebergConfig.fromEnv required
  cases optional env "GARAGE_ACCESS_KEY" <;> cases optional env "GARAGE_SECRET_KEY" <;>
    simp [bind, Except.bind, pure, Except.pure]

theorem fromEnv_ok (h : IcebergConfig.fromEnv parseF64 env = .ok cfg) :
    optional env "GARAGE_ACCESS_KEY" = some cfg.s3AccessKeyId ∧
    optional env "GARAGE_SECRET_KEY" = some cfg.s3SecretAccessKey ∧
    catalogProps cfg = propsOf
      (string env "LAKEKEEPER_URI"
        "http://lakekeeper-lakekeeper.default.svc.cluster.local:8181/catalog")
      (string env "LAKEKEEPER_WAREHOUSE" "crypto_lakehouse")
      (string env "GARAGE_ENDPOINT" "http://garage-svc.garage.svc.cluster.local:3900")
      (string env "GARAGE_REGION" "eu-lambronx-1") cfg.s3AccessKeyId cfg.s3SecretAccessKey
      (toString (boolEnv env "GARAGE_PATH_STYLE" true)) ++
      match optional env "LAKEKEEPER_CREDENTIAL" with
      | some credential => [("credential", credential)]
      | none => [] := by
  unfold IcebergConfig.fromEnv required at h
  cases ha : optional env "GARAGE_ACCESS_KEY" with
  | none => simp [ha, bind, Except.bind] at h
  | some a =>
    cases hb : optional env "GARAGE_SECRET_KEY" with
    | none => simp [ha, hb, bind, Except.bind] at h
    | some b =>
      rw [ha, hb] at h
      cases h
      exact ⟨rfl, rfl, rfl⟩

/-- Maps with the same keys agree when their values do. -/
theorem lookup_propsOf {u w e r a k p u' w' e' r' a' k' p' : String} {credential : Option String} :
    (∀ key, (propsOf u w e r a k p).lookup key = (propsOf u' w' e' r' a' k' p' ++
      match credential with
      | some credential => [("credential", credential)]
      | none => []).lookup key) ↔
    u = u' ∧ w = w' ∧ e = e' ∧ r = r' ∧ a = a' ∧ k = k' ∧ p = p' ∧ credential = none := by
  refine ⟨fun h => ⟨?_, ?_, ?_, ?_, ?_, ?_, ?_, ?_⟩, fun h key => ?_⟩
  · exact Option.some.inj (h "uri")
  · exact Option.some.inj (h "warehouse")
  · exact Option.some.inj (h "s3.endpoint")
  · exact Option.some.inj (h "s3.region")
  · exact Option.some.inj (h "s3.access-key-id")
  · exact Option.some.inj (h "s3.secret-access-key")
  · exact Option.some.inj (h "s3.path-style-access")
  · cases credential with
    | none => rfl
    | some c =>
      have hx : none = some c := h "credential"
      cases hx
  · obtain ⟨rfl, rfl, rfl, rfl, rfl, rfl, rfl, rfl⟩ := h
    rw [List.append_nil]

/-- **One catalog.** For every environment and every name the tools accept, the session of the queries
and the sink of the writes are configured, and for the same catalog, exactly when `LAKEKEEPER_URI` and
the keys are set and not blank, the warehouse, the endpoint and the region are not set to blank texts,
path style is not turned off, and there is no credential. -/
theorem one_catalog_iff (hname : checkedQualifiedName table = .ok name) :
    (∃ props cfg, sessionProps env = .ok props ∧ openConfig parseF64 env table = .ok cfg ∧
      ∀ key, props.lookup key = (catalogProps cfg).lookup key) ↔ OneCatalog env := by
  obtain ⟨-, ns, tb, haccepted⟩ := accepted_of_checked hname
  refine ⟨fun h => ?_, fun h => ?_⟩
  · obtain ⟨props, cfg, hs, ho, hagree⟩ := h
    obtain ⟨a, k, ha, hk, rfl⟩ := sessionProps_eq_ok.1 hs
    obtain ⟨cfg₀, d, hc, -, rfl⟩ := (openConfig_eq_ok hname).1 ho
    obtain ⟨ha', hk', hprops⟩ := fromEnv_ok hc
    have hsame : catalogProps { cfg₀ with namespaceName := d.1, table := d.2 } =
        catalogProps cfg₀ := rfl
    rw [hsame, hprops, lookup_propsOf] at hagree
    obtain ⟨hu, hw, he, hr, -, -, hp, hcred⟩ := hagree
    refine ⟨?_, ?_, ?_, ?_, ?_, ?_, ?_, hcred⟩
    · exact (getD_eq_string_iff_of_ne (by decide +kernel) (by decide)).1 hu
    · exact (getD_eq_string_iff (by decide +kernel)).1 hw
    · exact (getD_eq_string_iff (by decide +kernel)).1 he
    · exact (getD_eq_string_iff (by decide +kernel)).1 hr
    · rw [ha']
      rfl
    · rw [hk']
      rfl
    · cases hb : boolEnv env "GARAGE_PATH_STYLE" true with
      | true => rfl
      | false =>
        rw [hb] at hp
        exact absurd hp (by decide)
  · obtain ⟨cfg₀, hc⟩ := fromEnv_eq_ok.2 ⟨h.accessKey, h.secretKey⟩
    obtain ⟨ha, hk, hprops⟩ := fromEnv_ok hc
    obtain ⟨d, hd⟩ : ∃ d, splitOnce table = some d := ⟨_, haccepted.splitOnce⟩
    refine ⟨_, _,
      sessionProps_eq_ok.2 ⟨_, _, (optional_eq_some.1 ha).1, (optional_eq_some.1 hk).1, rfl⟩,
      (openConfig_eq_ok hname).2 ⟨cfg₀, d, hc, hd, rfl⟩, ?_⟩
    have hsame : catalogProps { cfg₀ with namespaceName := d.1, table := d.2 } =
        catalogProps cfg₀ := rfl
    rw [hsame, hprops, lookup_propsOf]
    refine ⟨(getD_eq_string_iff_of_ne (by decide +kernel) (by decide)).2 h.uri,
      (getD_eq_string_iff (by decide +kernel)).2 h.warehouse,
      (getD_eq_string_iff (by decide +kernel)).2 h.endpoint,
      (getD_eq_string_iff (by decide +kernel)).2 h.region, rfl, rfl, ?_, h.credential⟩
    rw [h.pathStyle]
    rfl

end

/-- The environment of the deployment, with its secrets. -/
def deployed : Env := fun key =>
  [("LAKEKEEPER_URI", "http://lakekeeper.lakekeeper.svc.cluster.local:8181/catalog"),
    ("LAKEKEEPER_WAREHOUSE", "crypto_lakehouse"),
    ("GARAGE_ENDPOINT", "http://garage-svc.garage.svc.cluster.local:3900"),
    ("GARAGE_REGION", "eu-lambronx-1"), ("GARAGE_PATH_STYLE", "true"),
    ("GARAGE_ACCESS_KEY", "key"), ("GARAGE_SECRET_KEY", "secret")].lookup key

theorem one_catalog_iff_deployed : ∃ props cfg, sessionProps deployed = .ok props ∧
    openConfig (fun _ => none) deployed "trades.trades" = .ok cfg ∧
    ∀ key, props.lookup key = (catalogProps cfg).lookup key := by
  have hname : checkedQualifiedName "trades.trades" = .ok "trades.trades" := by decide +kernel
  refine (one_catalog_iff hname).2 ⟨?_, ?_, ?_, ?_, ?_, ?_, ?_, ?_⟩ <;> decide +kernel

end Query
