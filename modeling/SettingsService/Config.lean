import SettingsService.Http

/-!
# Configuration from the environment

`Config::from_env`: every variable is read once at startup; a missing required one stops the
service, and every other one has a default.

Main definitions:

* `Config`, `ConfigError` — the configuration, and why there is none;
* `Config.fromEnv` — reading it, from the variables that are set.
-/

set_option relaxedAutoImplicit false
set_option autoImplicit false

namespace SettingsService

/-- Validated application configuration. -/
structure Config where
  databaseUrl : String
  serviceHost : String
  servicePort : ℕ
  allowedOrigins : List String
  authIssuer : String
  authAudience : String
  serviceName : String
  otlpEndpoint : String
  otelHttpEndpoint : String
  rateLimitRequests : ℕ
  rateLimitBurst : ℕ
  mqttHost : String
  mqttPort : ℕ
  mqttClientId : String
  /-- The interval of the demo loop in seconds; none at zero. -/
  demoIntervalSecs : ℕ
  /-- The shared token of the demo trigger; the route is absent without one. -/
  demoTriggerToken : Option String
  deriving DecidableEq

/-- Why there is no configuration. -/
structure ConfigError where
  /-- The variable. -/
  variable_ : String
  /-- What is wrong with it. -/
  reason : String
  deriving DecidableEq

namespace Config

/-- `comma_list`. -/
def commaList (s : String) : List String :=
  ((split ',' s).map trim).filter fun p => !p.isEmpty && p != "*"

/-- A variable that is required. -/
def required (var : String → Option String) (name : String) : Except ConfigError String :=
  match var name with
  | some s => .ok s
  | none => .error ⟨name, "required variable is not set"⟩

/-- An unsigned integer below `bound`, or the default where it is not set or cannot be read. -/
def numberOr (var : String → Option String) (name : String) (bound default : ℕ) : ℕ :=
  ((var name).bind (parseUnsigned bound)).getD default

/-- `from_env`, when `var` are the variables that are set. -/
def fromEnv (var : String → Option String) : Except ConfigError Config := do
  let databaseUrl ← required var "DATABASE_URL"
  let authIssuer ← required var "AUTH_ISSUER"
  let authAudience ← required var "AUTH_AUDIENCE"
  if databaseUrl.isEmpty || authIssuer.isEmpty || authAudience.isEmpty then
    throw ⟨"DATABASE_URL/AUTH_ISSUER/AUTH_AUDIENCE", "must not be empty"⟩
  else
    let serviceName := (var "SERVICE_NAME").getD "settings-service"
    return {
      databaseUrl
      serviceHost := (var "SERVICE_HOST").getD "0.0.0.0"
      servicePort := numberOr var "SERVICE_PORT" (2 ^ 16) 8080
      allowedOrigins := commaList ((var "ALLOWED_ORIGINS").getD "http://localhost:3000")
      authIssuer
      authAudience
      serviceName
      otlpEndpoint := (var "OTLP_ENDPOINT").getD "http://localhost:4317"
      otelHttpEndpoint := (var "OTEL_HTTP_ENDPOINT").getD "http://localhost:4318"
      rateLimitRequests := numberOr var "RATE_LIMIT_REQUESTS" (2 ^ 32) 10
      rateLimitBurst := numberOr var "RATE_LIMIT_BURST" (2 ^ 32) 20
      mqttHost := (var "MQTT_HOST").getD "mosquitto"
      mqttPort := numberOr var "MQTT_PORT" (2 ^ 16) 1883
      mqttClientId := (var "MQTT_CLIENT_ID").getD serviceName
      demoIntervalSecs := numberOr var "DEMO_INTERVAL_SECS" (2 ^ 64) 0
      demoTriggerToken := var "DEMO_TRIGGER_TOKEN" }

end Config

end SettingsService
