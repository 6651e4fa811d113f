import SettingsService.AuthModel
import SettingsService.Json
import SettingsService.SettingsModel
import SettingsService.Traces
import Mathlib.Data.List.AList

/-!
# The token adapter

`JwtAuthAdapter` with its cache of the signing keys of the identity provider.  The adapter is a
program over the cache, the identity provider and the clocks: each read or write under a lock, each
fetch and each reading of a clock is one call.  A lock that a panicking thread has poisoned, and an
instant that overflows, are not modelled.

The library that decodes tokens is not part of the repository.  What the adapter uses of it is a
parameter, `JsonWebToken`, and what the adapter relies on is `JsonWebToken.Documented`.

Main definitions:

* `JsonWebToken`, `Validation`, `Claims` — the library, the checks the adapter asks it for, and the
  claims it reads;
* `AuthOp`, `AuthWorld`, `AuthOp.exec` — the calls, the state behind them, and their meaning in an
  environment of clock readings and answers of the identity provider;
* `Jwks.refresh`, `Jwks.keyFor`, `JwtAuthAdapter.validate` — the cache and the adapter.

Main results:

* `JwtAuthAdapter.follows_validate` — what a call of `validate` that succeeds has seen;
* `JwtAuthAdapter.only_validate` — validating a token leaves the revocations alone.
-/

set_option relaxedAutoImplicit false
set_option autoImplicit false

namespace SettingsService

open Interaction (Prog)
open Interaction.Prog (Follows Served Only)

/-! ### Claims -/

/-- A member of an object as a derived deserializer looks for it: absent or there; there twice is an
error. -/
def Json.field (p : Json) (name : String) : Option (Option Json) :=
  match p with
  | .object ms =>
      match ms.filter fun m => m.1 == name with
      | [] => some none
      | [m] => some (some m.2)
      | _ => none
  | _ => none

/-- An `Option<String>` with a default. -/
def optString : Option Json → Option (Option String)
  | none => some none
  | some .null => some none
  | some (.string s) => some (some s)
  | _ => none

/-- An `Option<u64>` with a default. -/
def optU64 : Option Json → Option (Option ℕ)
  | none => some none
  | some .null => some none
  | some (.number (.posInt n)) => some (some n.toNat)
  | _ => none

/-- The claims the service reads. -/
structure Claims where
  /-- The authorized party. -/
  azp : Option String
  /-- The subject. -/
  sub : Option String
  /-- The id of the token. -/
  jti : Option String
  /-- The time of expiry, in seconds. -/
  exp : Option ℕ
  /-- The tenant. -/
  tenant : Option String
  /-- The role. -/
  role : Option String
  deriving DecidableEq

/-- The derived `Deserialize`. -/
def Claims.deserialize (p : Json) : Option Claims := do
  let azp ← optString (← p.field "azp")
  let sub ← optString (← p.field "sub")
  let jti ← optString (← p.field "jti")
  let exp ← optU64 (← p.field "exp")
  let tenant ← optString (← p.field "tenant")
  let role ← optString (← p.field "role")
  return ⟨azp, sub, jti, exp, tenant, role⟩

/-- Claims are read one by one. -/
theorem Claims.deserialize_eq_some_iff {p : Json} {c : Claims} : Claims.deserialize p = some c ↔
    (p.field "azp").bind optString = some c.azp ∧ (p.field "sub").bind optString = some c.sub ∧
      (p.field "jti").bind optString = some c.jti ∧ (p.field "exp").bind optU64 = some c.exp ∧
      (p.field "tenant").bind optString = some c.tenant ∧
      (p.field "role").bind optString = some c.role := by
  obtain ⟨azp, sub, jti, exp, tenant, role⟩ := c
  simp only [deserialize, Option.bind_eq_bind, Option.bind_eq_some_iff, Option.pure_def,
    Option.some.injEq, Claims.mk.injEq]
  constructor
  · rintro ⟨j₁, h₁, _, h₁', j₂, h₂, _, h₂', j₃, h₃, _, h₃', j₄, h₄, _, h₄', j₅, h₅, _, h₅', j₆, h₆,
      _, h₆', rfl, rfl, rfl, rfl, rfl, rfl⟩
    exact ⟨⟨j₁, h₁, h₁'⟩, ⟨j₂, h₂, h₂'⟩, ⟨j₃, h₃, h₃'⟩, ⟨j₄, h₄, h₄'⟩, ⟨j₅, h₅, h₅'⟩, ⟨j₆, h₆, h₆'⟩⟩
  · rintro ⟨⟨j₁, h₁, h₁'⟩, ⟨j₂, h₂, h₂'⟩, ⟨j₃, h₃, h₃'⟩, ⟨j₄, h₄, h₄'⟩, ⟨j₅, h₅, h₅'⟩,
      ⟨j₆, h₆, h₆'⟩⟩
    exact ⟨j₁, h₁, _, h₁', j₂, h₂, _, h₂', j₃, h₃, _, h₃', j₄, h₄, _, h₄', j₅, h₅, _, h₅', j₆, h₆,
      _, h₆', rfl, rfl, rfl, rfl, rfl, rfl⟩

/-! ### The library -/

/-- A claim that is a text or a list of texts. -/
inductive OneOrMany
  | single (s : String)
  | multiple (ss : List String)
  deriving DecidableEq

/-- The text or the list of texts that a member holds. -/
def Json.oneOrMany : Json → Option OneOrMany
  | .string s => some (.single s)
  | .array xs => (xs.mapM fun x => match x with
      | Json.string s => some s
      | _ => none).map .multiple
  | _ => none

/-- A claim that is compared with the texts asked for: one of them at least has to be in it. -/
def OneOrMany.meets (asked : List String) : OneOrMany → Bool
  | single s => asked.contains s
  | multiple ss => ss.any asked.contains

/-- The checks a caller asks the library for. -/
structure Validation where
  /-- The issuers asked for. -/
  iss : List String
  /-- The audiences asked for. -/
  aud : List String
  /-- The claims that have to be present. -/
  requiredSpecClaims : List String
  /-- The seconds a token is accepted past its expiry. -/
  leeway : ℕ

namespace Validation

/-- `Validation::new`: the default leeway is a minute. -/
def new : Validation := ⟨[], [], ["exp"], 60⟩

/-- The issuer or audience claim of a payload, if it can be read. -/
def claim (name : String) (p : Json) : Option OneOrMany :=
  ((p.field name).join).bind Json.oneOrMany

/-- The expiry of a payload, if it can be read.  A fractional one never gets here: `Claims` does not
read it. -/
def expiry (p : Json) : Option ℕ := ((p.field "exp").bind optU64).join

/-- Is a claim present, for the purpose of requiring it? -/
def present (p : Json) (name : String) : Bool :=
  if name = "exp" then (expiry p).isSome
  else if name = "iss" ∨ name = "aud" then (claim name p).isSome
  else true

/-- None of the claims that the library reads for its checks is there twice. -/
def readable (p : Json) : Bool :=
  ["exp", "nbf", "sub", "iss", "aud"].all fun name => (p.field name).isSome

/-- The claims can be read, and the required ones are present. -/
def complete (v : Validation) (p : Json) : Bool :=
  readable p && v.requiredSpecClaims.all (present p)

/-- The token has expired at a time in seconds. -/
def expired (v : Validation) (p : Json) (now : ℕ) : Bool :=
  (expiry p).any fun exp => exp < now - v.leeway

/-- What the library checks of the claims at a time in seconds: they are complete, the token has not
expired, and issuer and audience, **where they are present**, meet what was asked for. -/
def admits (v : Validation) (p : Json) (now : ℕ) : Bool :=
  v.complete p && !v.expired p now &&
    (claim "iss" p).all (OneOrMany.meets v.iss) &&
    (claim "aud" p).all (OneOrMany.meets v.aud)

end Validation

/-- Why the library refuses a token, as far as the adapter looks at it. -/
inductive ErrorKind
  | expiredSignature
  | other
  deriving DecidableEq

/-- What the adapter uses of the library, and the form of tokens that it knows about. -/
structure JsonWebToken (Jwk Key : Type) where
  /-- The id of a key. -/
  keyId : Jwk → Option String
  /-- `DecodingKey::from_jwk`. -/
  fromJwk : Jwk → Option Key
  /-- `decode_header`: the id of the key a token names. -/
  decodeHeader : String → Option (Option String)
  /-- `decode`, at a time in seconds. -/
  decode : String → Key → Validation → ℕ → Except ErrorKind Claims
  /-- The signature of the token verifies under the key, with `RS256`. -/
  verifies : String → Key → Bool
  /-- The payload of a token. -/
  payload : String → Option Json

/-- The claims of a token. -/
def JsonWebToken.claims {Jwk Key : Type} (lib : JsonWebToken Jwk Key) (token : String) :
    Option Claims := (lib.payload token).bind Claims.deserialize

/-- The id the service knows a token by. -/
def JsonWebToken.tokenId {Jwk Key : Type} (lib : JsonWebToken Jwk Key) (token : String) :
    Option String := (lib.claims token).map fun claims => claims.jti.getD ""

/-- The expiry of a token, in seconds. -/
def JsonWebToken.tokenExp {Jwk Key : Type} (lib : JsonWebToken Jwk Key) (token : String) : ℕ :=
  ((lib.claims token).bind Claims.exp).getD 0

/-- What the library is documented to do: a token is accepted when its signature verifies, its
payload has the form asked for, and the payload is admitted. -/
structure JsonWebToken.Documented {Jwk Key : Type} (lib : JsonWebToken Jwk Key) : Prop where
  /-- What `decode` accepts, and what it returns. -/
  decode_eq_ok_iff : ∀ token key v now claims, lib.decode token key v now = .ok claims ↔
    lib.verifies token key = true ∧ ∃ p, lib.payload token = some p ∧
      Claims.deserialize p = some claims ∧ v.admits p now = true

/-- A library put together from its parts as documented. -/
def JsonWebToken.ofParts {Jwk Key : Type} (keyId : Jwk → Option String) (fromJwk : Jwk → Option Key)
    (decodeHeader : String → Option (Option String)) (verifies : String → Key → Bool)
    (payload : String → Option Json) : JsonWebToken Jwk Key where
  keyId := keyId
  fromJwk := fromJwk
  decodeHeader := decodeHeader
  decode token key v now :=
    match payload token with
    | none => .error .other
    | some p =>
        match Claims.deserialize p with
        | none => .error .other
        | some claims =>
            if verifies token key && v.admits p now then .ok claims
            else if verifies token key && v.complete p && v.expired p now then
              .error .expiredSignature
            else .error .other
  verifies := verifies
  payload := payload

theorem JsonWebToken.documented_ofParts {Jwk Key : Type} (keyId : Jwk → Option String)
    (fromJwk : Jwk → Option Key) (decodeHeader : String → Option (Option String))
    (verifies : String → Key → Bool) (payload : String → Option Json) :
    (ofParts keyId fromJwk decodeHeader verifies payload).Documented := by
  refine ⟨fun token key v now claims => ?_⟩
  simp only [ofParts]
  cases payload token with
  | none => simp
  | some p =>
      cases hp : Claims.deserialize p with
      | none => simp [hp]
      | some claims' =>
          simp only [Option.some.injEq, exists_eq_left', hp]
          by_cases h : (verifies token key && v.admits p now) = true
          · obtain ⟨hv, ha⟩ := Bool.and_eq_true_iff.1 h
            rw [if_pos h, Except.ok.injEq]
            exact ⟨fun hc => ⟨hv, hc, ha⟩, fun hc => hc.2.1⟩
          · rw [if_neg h]
            constructor
            · intro hd
              split_ifs at hd
            · rintro ⟨hv, -, ha⟩
              exact absurd (Bool.and_eq_true_iff.2 ⟨hv, ha⟩) h

/-- One key, one id, and tokens with the payloads given. -/
def Sample.lib (payload : String → Option Json) : JsonWebToken String String :=
  .ofParts some some (fun _ => some (some "k1")) (fun _ key => key == "k1") payload

theorem Sample.documented_lib (payload : String → Option Json) : (Sample.lib payload).Documented :=
  JsonWebToken.documented_ofParts ..

/-- A token of Alice that expires at second 100. -/
def Sample.token : String → Option Json
  | "t" => some (.object [("iss", .string "idp"), ("aud", .string "settings"),
      ("sub", .string "alice"), ("tenant", .string "acme"), ("jti", .string "j1"),
      ("exp", .number (.posInt 100))])
  | _ => none

/-! ### Calls and their meaning -/

/-- Nanoseconds to a second. -/
def second : ℕ := 1000000000

/-- `Duration::as_secs` since the epoch. -/
def asSecs (t : Instant) : ℕ := t / second

/-- The calls of the slice. -/
inductive AuthOp (Jwk : Type)
  /-- Look a key up in the current set. -/
  | keys (kid : String)
  /-- Look a key up in the previous set. -/
  | previous (kid : String)
  /-- Fetch the key set of the identity provider. -/
  | fetch
  /-- The current set becomes the previous one. -/
  | keep
  /-- A new current set. -/
  | install (next : AList fun _ : String => Jwk)
  /-- The time of the fetch is now. -/
  | stamp
  /-- The clock as the library reads it. -/
  | timestamp
  /-- `SystemTime::now`. -/
  | systemTime
  /-- `Instant::now`. -/
  | instant
  /-- Insert a revocation. -/
  | insert (jti : String) (expiry : Instant)
  /-- Look a revocation up, at the time of the lookup. -/
  | isRevoked (jti : String)

/-- The answers. -/
abbrev AuthOp.Ret {Jwk : Type} : AuthOp Jwk → Type
  | keys _ => Option Jwk
  | previous _ => Option Jwk
  | fetch => Option (List Jwk)
  | timestamp => Instant
  | systemTime => Instant
  | instant => Instant
  | isRevoked _ => Bool
  | _ => Unit

/-- A set of keys by id. -/
abbrev KeySet (Jwk : Type) : Type := AList fun _ : String => Jwk

/-- The revocation store: a deadline for every revoked id. -/
abbrev InMemoryRevocationStore : Type := AList fun _ : String => Instant

/-- The state of the slice. -/
structure AuthWorld (Jwk : Type) where
  /-- How many calls there have been. -/
  steps : ℕ
  /-- The current key set. -/
  keys : KeySet Jwk
  /-- The previous key set. -/
  previous : KeySet Jwk
  /-- The time of the last fetch. -/
  fetchedAt : Instant
  /-- The revocations. -/
  revoked : InMemoryRevocationStore

/-- What the service finds around it: the time of each call, as the wall clock and the monotonic
clock show it, and what the identity provider would answer to it. -/
structure AuthEnv (Jwk : Type) where
  /-- The time of each call. -/
  clock : ℕ → Instant
  /-- Time does not go back. -/
  clock_mono : Monotone clock
  /-- The answer to each fetch, if there is one that can be read. -/
  idp : ℕ → Option (List Jwk)

/-- The lookup of a revocation: an entry whose deadline has passed is removed. -/
def InMemoryRevocationStore.isRevoked (store : InMemoryRevocationStore) (jti : String)
    (now : Instant) : Bool × InMemoryRevocationStore :=
  match store.lookup jti with
  | some expiry => if now < expiry then (true, store) else (false, store.erase jti)
  | none => (false, store)

/-- How long a fetched key set is trusted. -/
def jwksTtl : ℕ := 300 * second

namespace AuthWorld

variable {Jwk : Type}

/-- `JwksCache::new` and `InMemoryRevocationStore::new`. -/
def new (now : Instant) : AuthWorld Jwk := ⟨0, ∅, ∅, now - jwksTtl, ∅⟩

/-- One more call. -/
def tick (w : AuthWorld Jwk) : AuthWorld Jwk := { w with steps := w.steps + 1 }

end AuthWorld

/-- **The meaning of a call.** -/
def AuthOp.exec {Jwk : Type} (env : AuthEnv Jwk) :
    (o : AuthOp Jwk) → AuthWorld Jwk → o.Ret × AuthWorld Jwk
  | keys kid, w => (w.keys.lookup kid, w.tick)
  | previous kid, w => (w.previous.lookup kid, w.tick)
  | fetch, w => (env.idp w.steps, w.tick)
  | keep, w => ((), { w.tick with previous := w.keys })
  | install next, w => ((), { w.tick with keys := next })
  | stamp, w => ((), { w.tick with fetchedAt := env.clock w.steps })
  | timestamp, w => (env.clock w.steps, w.tick)
  | systemTime, w => (env.clock w.steps, w.tick)
  | instant, w => (env.clock w.steps, w.tick)
  | insert jti expiry, w => ((), { w.tick with revoked := w.revoked.insert jti expiry })
  | isRevoked jti, w =>
      let r := w.revoked.isRevoked jti (env.clock w.steps)
      (r.1, { w.tick with revoked := r.2 })

@[simp] theorem AuthOp.exec_steps {Jwk : Type} (env : AuthEnv Jwk) (o : AuthOp Jwk)
    (w : AuthWorld Jwk) : (o.exec env w).2.steps = w.steps + 1 := by
  cases o <;> rfl

/-- Does a call go to the revocation store? -/
def AuthOp.isStore {Jwk : Type} : AuthOp Jwk → Bool
  | insert _ _ => true
  | isRevoked _ => true
  | _ => false

/-- A program over these calls that may fail. -/
abbrev Auth (Jwk α : Type) : Type := ExceptT AuthError (Prog (AuthOp Jwk) AuthOp.Ret) α

/-- Perform one call. -/
def perform {Jwk : Type} (o : AuthOp Jwk) : Auth Jwk o.Ret := ExceptT.lift (Prog.perform o)

/-! ### The key cache -/

namespace Jwks

variable {Jwk Key : Type} (lib : JsonWebToken Jwk Key)

/-- The keys of a fetched set that have an id; a later one replaces an earlier one. -/
def byKid (set : List Jwk) : KeySet Jwk :=
  set.foldl (fun next jwk => match lib.keyId jwk with
    | some kid => next.insert kid jwk
    | none => next) ∅

/-- `refresh`. -/
def refresh : Auth Jwk Unit := do
  match ← perform .fetch with
  | none => throw .unavailable
  | some set => do
      let next := byKid lib set
      if next.keys.isEmpty then throw .unavailable
      else do
        perform .keep
        perform (.install next)
        perform .stamp

/-- The two lookups of `key_for`, by `key_from_map`. -/
def lookup (kid : String) : Auth Jwk (Option Key) := do
  match Option.bind (← perform (.keys kid)) lib.fromJwk with
  | some k => return some k
  | none => return Option.bind (← perform (.previous kid)) lib.fromJwk

/-- `key_for`. -/
def keyFor (kid : String) : Auth Jwk Key := do
  match ← lookup lib kid with
  | some k => return k
  | none => do
      refresh lib
      match ← lookup lib kid with
      | some k => return k
      | none => throw .invalidToken

end Jwks

section Trace

variable {Jwk Key : Type} {lib : JsonWebToken Jwk Key} {kid : String}
  {tr : List (Interaction.Answered (AuthOp Jwk) AuthOp.Ret)} {env : AuthEnv Jwk}
  {w w' : AuthWorld Jwk}

theorem follows_perform_iff {o : AuthOp Jwk} {r : o.Ret} :
    Follows (perform o).run tr (.pure (.ok r)) ↔ tr = [⟨o, r⟩] := by
  rw [perform, Interaction.Prog.returns_lift_iff]
  simp

/-- A single call comes to no other. -/
theorem reaches_perform {o o' : AuthOp Jwk} {k : o'.Ret → Prog (AuthOp Jwk) AuthOp.Ret _}
    (h : Follows (perform o).run tr (.call o' k)) : tr = [] ∧ o = o' := by
  rcases Interaction.Prog.follows_call_iff.1 h with ⟨rfl, hq⟩ | ⟨r, t, -, hr⟩
  · cases hq
    exact ⟨rfl, rfl⟩
  · cases (Interaction.Prog.follows_pure_iff.1 hr).2

theorem only_perform {o : AuthOp Jwk} (ho : o.isStore = false) :
    Only (fun o => o.isStore = false) (perform o).run := ⟨ho, fun _ => trivial⟩

namespace Jwks

/-- The two lookups are all that is performed. -/
theorem only_lookup {S : AuthOp Jwk → Prop} (lib : JsonWebToken Jwk Key) (hkeys : S (.keys kid))
    (hprevious : S (.previous kid)) : Only S (lookup lib kid).run := by
  refine Only.except_bind ⟨hkeys, fun _ => trivial⟩ fun j => ?_
  split
  · exact trivial
  · exact Only.except_bind ⟨hprevious, fun _ => trivial⟩ fun _ => trivial

/-- Finding a key leaves the revocations alone. -/
theorem only_keyFor (kid : String) : Only (fun o => o.isStore = false) (keyFor lib kid).run := by
  have hlookup : Only (fun o : AuthOp Jwk => o.isStore = false) (lookup lib kid).run :=
    only_lookup lib rfl rfl
  refine hlookup.except_bind fun k => ?_
  split
  · exact trivial
  · refine Only.except_bind ?_ fun _ => hlookup.except_bind fun k => ?_
    · refine (only_perform rfl).except_bind fun set => ?_
      split
      · exact trivial
      · rename_i set
        by_cases hset : (byKid lib set).keys.isEmpty = true
        · simp only [hset]
          exact trivial
        · simp only [hset, Bool.false_eq_true]
          exact (only_perform rfl).except_bind fun _ => (only_perform rfl).except_bind fun _ =>
              only_perform rfl
    · split <;> exact trivial

/-- A lookup that finds a key finds it in one of the sets, and leaves both alone. -/
theorem served_lookup {key : Key} (hf : Follows (lookup lib kid).run tr (.pure (.ok (some key))))
    (hs : Served (AuthOp.exec env) w tr w') : ∃ jwk, lib.fromJwk jwk = some key ∧
      (w'.keys.lookup kid = some jwk ∨ w'.previous.lookup kid = some jwk) := by
  rw [lookup, Interaction.Prog.succeeds_bind_iff] at hf
  obtain ⟨j, t₁, t₂, rfl, h₁, h₂⟩ := hf
  obtain rfl := follows_perform_iff.1 h₁
  rw [Interaction.Prog.served_append] at hs
  obtain ⟨w₁, ⟨rfl, rfl⟩, hs⟩ := hs
  cases hj : Option.bind (w.keys.lookup kid) lib.fromJwk with
  | some k =>
      simp only [AuthOp.exec, hj, Interaction.Prog.succeeds_pure_iff] at h₂
      obtain ⟨rfl, hk⟩ := h₂
      obtain rfl : key = k := by simpa using hk
      obtain ⟨jwk, hjwk, hkey⟩ := Option.bind_eq_some_iff.1 hj
      obtain rfl := Interaction.Prog.served_nil.1 hs
      exact ⟨jwk, hkey, .inl hjwk⟩
  | none =>
      simp only [AuthOp.exec, hj, Interaction.Prog.succeeds_bind_iff,
        Interaction.Prog.succeeds_pure_iff] at h₂
      obtain ⟨j', t₁, t₂, rfl, h₁, rfl, hk⟩ := h₂
      obtain rfl := follows_perform_iff.1 h₁
      rw [List.append_nil] at hs
      obtain ⟨rfl, rfl⟩ := hs
      obtain ⟨jwk, hjwk, hkey⟩ := Option.bind_eq_some_iff.1 hk.symm
      exact ⟨jwk, hkey, .inr hjwk⟩

/-- **A key that is found** is filed under its id in one of the sets of the cache. -/
theorem served_keyFor {key : Key} (hf : Follows (keyFor lib kid).run tr (.pure (.ok key)))
    (hs : Served (AuthOp.exec env) w tr w') : ∃ jwk, lib.fromJwk jwk = some key ∧
      (w'.keys.lookup kid = some jwk ∨ w'.previous.lookup kid = some jwk) := by
  rw [keyFor, Interaction.Prog.succeeds_bind_iff] at hf
  obtain ⟨k, t₁, t₂, rfl, h₁, h₂⟩ := hf
  obtain ⟨w₁, hs₁, hs₂⟩ := Interaction.Prog.served_append.1 hs
  cases k with
  | some k =>
      obtain ⟨rfl, rfl⟩ := Interaction.Prog.succeeds_pure_iff.1 h₂
      obtain rfl := Interaction.Prog.served_nil.1 hs₂
      exact served_lookup h₁ hs₁
  | none =>
      simp only [Interaction.Prog.succeeds_bind_iff] at h₂
      obtain ⟨-, t₃, t₄, rfl, -, k, t₅, t₆, rfl, h₅, h₆⟩ := h₂
      obtain ⟨w₂, -, hs₂⟩ := Interaction.Prog.served_append.1 hs₂
      obtain ⟨w₃, hs₃, hs₄⟩ := Interaction.Prog.served_append.1 hs₂
      cases k with
      | some k =>
          obtain ⟨rfl, rfl⟩ := Interaction.Prog.succeeds_pure_iff.1 h₆
          obtain rfl := Interaction.Prog.served_nil.1 hs₄
          exact served_lookup h₅ hs₃
      | none => exact absurd h₆ Interaction.Prog.not_succeeds_throw

/-- A lookup that finds a key was answered with it. -/
theorem answered_lookup {key : Key}
    (h : Follows (lookup lib kid).run tr (.pure (.ok (some key)))) :
    ∃ jwk, lib.fromJwk jwk = some key ∧
      (⟨.keys kid, some jwk⟩ ∈ tr ∨ ⟨.previous kid, some jwk⟩ ∈ tr) := by
  rw [lookup, Interaction.Prog.succeeds_bind_iff] at h
  obtain ⟨j, t₁, t₂, rfl, h₁, h₂⟩ := h
  obtain rfl := follows_perform_iff.1 h₁
  cases hj : Option.bind j lib.fromJwk with
  | some k =>
      simp only [hj, Interaction.Prog.succeeds_pure_iff, Option.some.injEq] at h₂
      obtain ⟨rfl, rfl⟩ := h₂
      obtain ⟨jwk, rfl, hkey⟩ := Option.bind_eq_some_iff.1 hj
      exact ⟨jwk, hkey, .inl (by simp)⟩
  | none =>
      simp only [hj, Interaction.Prog.succeeds_bind_iff, Interaction.Prog.succeeds_pure_iff] at h₂
      obtain ⟨j', t₁, t₂, rfl, h₁, rfl, hk⟩ := h₂
      obtain rfl := follows_perform_iff.1 h₁
      obtain ⟨jwk, rfl, hkey⟩ := Option.bind_eq_some_iff.1 hk.symm
      exact ⟨jwk, hkey, .inr (by simp)⟩

/-- **A key that is found** was answered to one of the lookups. -/
theorem answered_keyFor {key : Key} (h : Follows (keyFor lib kid).run tr (.pure (.ok key))) :
    ∃ jwk, lib.fromJwk jwk = some key ∧
      (⟨.keys kid, some jwk⟩ ∈ tr ∨ ⟨.previous kid, some jwk⟩ ∈ tr) := by
  rw [keyFor, Interaction.Prog.succeeds_bind_iff] at h
  obtain ⟨k, t₁, t₂, rfl, h₁, h₂⟩ := h
  cases k with
  | some k =>
      obtain ⟨rfl, rfl⟩ := Interaction.Prog.succeeds_pure_iff.1 h₂
      rw [List.append_nil]
      exact answered_lookup h₁
  | none =>
      simp only [Interaction.Prog.succeeds_bind_iff] at h₂
      obtain ⟨-, t₃, t₄, rfl, -, k, t₅, t₆, rfl, h₅, h₆⟩ := h₂
      cases k with
      | some k =>
          obtain ⟨rfl, rfl⟩ := Interaction.Prog.succeeds_pure_iff.1 h₆
          obtain ⟨jwk, hkey, hmem⟩ := answered_lookup h₅
          exact ⟨jwk, hkey, hmem.imp (by simp +contextual) (by simp +contextual)⟩
      | none => exact absurd h₆ Interaction.Prog.not_succeeds_throw

/-- A key of the current set is found at once. -/
theorem follows_keyFor {jwk : Jwk} {key : Key} (hkey : lib.fromJwk jwk = some key) :
    Follows (keyFor lib kid).run [⟨.keys kid, some jwk⟩] (.pure (.ok key)) := by
  rw [keyFor, Interaction.Prog.succeeds_bind_iff]
  refine ⟨some key, [⟨.keys kid, some jwk⟩], [], rfl, ?_,
    Interaction.Prog.succeeds_pure_iff.2 ⟨rfl, rfl⟩⟩
  rw [lookup, Interaction.Prog.succeeds_bind_iff]
  refine ⟨some jwk, [⟨.keys kid, some jwk⟩], [], rfl, follows_perform_iff.2 rfl, ?_⟩
  rw [Option.bind_some, hkey]
  exact Interaction.Prog.succeeds_pure_iff.2 ⟨rfl, rfl⟩

end Jwks

end Trace

/-! ### The adapter -/

/-- `parse_role`. -/
def parseRole (s : Option String) : Role :=
  let r := toAsciiLowercase (s.getD "User")
  if r = "admin" ∨ r = "administrator" then .admin else .user

/-- A validated principal. -/
structure JwtPrincipal where
  /-- The authority. -/
  authority : Authority
  /-- The session id. -/
  jti : String
  /-- What is left of the lifetime of the token. -/
  remainingTtl : ℕ
  deriving DecidableEq

/-- The adapter. -/
structure JwtAuthAdapter where
  /-- The issuer. -/
  issuer : String
  /-- The audience. -/
  audience : String

namespace JwtAuthAdapter

variable {Jwk Key : Type} (lib : JsonWebToken Jwk Key) (a : JwtAuthAdapter)

/-- The checks the adapter asks the library for. -/
def validation : Validation :=
  { Validation.new with
    iss := [a.issuer], aud := [a.audience], requiredSpecClaims := ["exp", "iss"] }

/-- `map_err` on the result of `decode`. -/
def mapErr : ErrorKind → AuthError
  | .expiredSignature => .expired
  | .other => .invalidToken

/-- A computation without calls. -/
def orInvalid {α : Type} (o : Option α) : Auth Jwk α :=
  match o with
  | some x => pure x
  | none => throw .invalidToken

/-- `validate`. -/
def validate (token : String) : Auth Jwk JwtPrincipal := do
  let header ← orInvalid (lib.decodeHeader token)
  let kid ← orInvalid header
  let key ← Jwks.keyFor lib kid
  let now ← perform .timestamp
  match lib.decode token key a.validation (asSecs now) with
  | .error e => throw (mapErr e)
  | .ok claims => do
      let user ← orInvalid (claims.sub.or claims.azp)
      let tenant ← orInvalid claims.tenant
      let role := parseRole claims.role
      let remainingTtl ← match claims.exp with
        | some exp => do
            let now ← perform .systemTime
            pure ((exp - asSecs now) * second)
        | none => pure 0
      return ⟨⟨⟨tenant⟩, ⟨user⟩, role⟩, claims.jti.getD "", remainingTtl⟩

section Trace

variable {lib : JsonWebToken Jwk Key} {a : JwtAuthAdapter} {token : String}
  {tr : List (Interaction.Answered (AuthOp Jwk) AuthOp.Ret)}

theorem succeeds_orInvalid_iff {α : Type} {o : Option α} {x : α} :
    Follows (orInvalid o : Auth Jwk α).run tr (.pure (.ok x)) ↔ o = some x ∧ tr = [] := by
  cases o with
  | none =>
      rw [orInvalid]
      simp only [Interaction.Prog.not_succeeds_throw, reduceCtorEq, false_and]
  | some y =>
      rw [orInvalid, Interaction.Prog.succeeds_pure_iff]
      simp [eq_comm, and_comm]

theorem only_orInvalid {α : Type} (S : AuthOp Jwk → Prop) (o : Option α) :
    Only S (orInvalid o : Auth Jwk α).run := by
  cases o <;> exact trivial

/-- What the adapter has the library check: no claim is there twice, expiry and issuer are required,
and the audience is compared when there is one. -/
theorem admits_validation_iff {p : Json} {now : ℕ} : a.validation.admits p now = true ↔
    Validation.readable p = true ∧
      (∃ exp, Validation.expiry p = some exp ∧ now ≤ exp + 60) ∧
      (∃ iss, Validation.claim "iss" p = some iss ∧ iss.meets [a.issuer] = true) ∧
      ∀ aud, Validation.claim "aud" p = some aud → aud.meets [a.audience] = true := by
  simp only [Validation.admits, Validation.complete, Validation.expired, validation,
    Validation.new, Bool.and_eq_true, List.all_cons, List.all_nil, Validation.present, if_true,
    Option.all_eq_true_iff_get, String.reduceEq, if_false, true_or, and_assoc]
  refine and_congr Iff.rfl ?_
  cases Validation.expiry p with
  | none => simp
  | some exp =>
      cases Validation.claim "iss" p with
      | none => simp
      | some iss =>
          simp only [Option.isSome_some, Option.get_some, true_and, forall_true_left,
            Option.some.injEq, exists_eq_left']
          have hlt : (!(some exp).any fun exp => decide (exp < now - 60)) = true ↔
              now ≤ exp + 60 := by
            rw [Option.any_some, Bool.not_eq_true', decide_eq_false_iff_not]
            omega
          refine and_congr hlt (and_congr Iff.rfl ?_)
          cases Validation.claim "aud" p <;> simp

/-- The claims of a token that is accepted; its expiry is at most the leeway ago. -/
theorem claims_of_decode (hlib : lib.Documented) {key : Key} {now : ℕ} {claims : Claims}
    (h : lib.decode token key a.validation now = .ok claims) :
    lib.claims token = some claims ∧ ∃ exp, claims.exp = some exp ∧ now ≤ exp + 60 := by
  obtain ⟨-, p, hp, hclaims, hv⟩ := (hlib.decode_eq_ok_iff _ _ _ _ _).1 h
  refine ⟨by rw [JsonWebToken.claims, hp]; exact hclaims, ?_⟩
  obtain ⟨-, ⟨exp, hexp, hle⟩, -⟩ := admits_validation_iff.1 hv
  rw [Validation.expiry, (Claims.deserialize_eq_some_iff.1 hclaims).2.2.2.1] at hexp
  exact ⟨exp, hexp, hle⟩

/-- What the claims of a token say about the principal, when the time is read at `later`. -/
structure Names (claims : Claims) (later : Instant) (principal : JwtPrincipal) : Prop where
  /-- The tenant is the tenant claim. -/
  tenant : claims.tenant = some principal.authority.tenant.asStr
  /-- The user is the subject, or else the authorized party. -/
  user : claims.sub.or claims.azp = some principal.authority.user.asStr
  /-- The role is read off the role claim. -/
  role : principal.authority.role = parseRole claims.role
  /-- The id is the id claim. -/
  jti : principal.jti = claims.jti.getD ""
  /-- The rest of the lifetime is counted in whole seconds. -/
  remainingTtl : principal.remainingTtl = (claims.exp.getD 0 - asSecs later) * second

/-- **What a successful validation has seen**: a key for the id the token names, then the time for
the library, which accepted the token, and then the time again. -/
theorem follows_validate (hlib : lib.Documented) {principal : JwtPrincipal} :
    Follows (a.validate lib token).run tr (.pure (.ok principal)) ↔
      ∃ kid key tk now later claims, lib.decodeHeader token = some (some kid) ∧
        Follows (Jwks.keyFor lib kid).run tk (.pure (.ok key)) ∧
        tr = tk ++ [⟨.timestamp, now⟩, ⟨.systemTime, later⟩] ∧
        lib.decode token key a.validation (asSecs now) = .ok claims ∧
        Names claims later principal := by
  rw [validate]
  simp only [Interaction.Prog.succeeds_bind_iff, succeeds_orInvalid_iff]
  constructor
  · rintro ⟨header, _, _, rfl, ⟨hheader, rfl⟩, kid, _, _, rfl, ⟨rfl, rfl⟩, key, tk, _, rfl, hk, now,
      _, t, rfl, hnow, h⟩
    obtain rfl := follows_perform_iff.1 hnow
    cases hd : lib.decode token key a.validation (asSecs now) with
    | error e =>
        rw [hd] at h
        exact absurd h Interaction.Prog.not_succeeds_throw
    | ok claims =>
        obtain ⟨-, exp, hexp, -⟩ := claims_of_decode hlib hd
        simp only [hd, hexp, Interaction.Prog.succeeds_bind_iff, succeeds_orInvalid_iff,
          Interaction.Prog.succeeds_pure_iff] at h
        obtain ⟨user, _, _, rfl, ⟨huser, rfl⟩, tenant, _, _, rfl, ⟨htenant, rfl⟩, later, _, _, rfl,
          hlater, ttl, _, _, rfl, ⟨rfl, rfl⟩, rfl, rfl⟩ := h
        obtain rfl := follows_perform_iff.1 hlater
        exact ⟨kid, key, tk, now, later, claims, hheader, hk, by simp, hd, htenant, huser, rfl, rfl,
          by rw [hexp]; rfl⟩
  · rintro ⟨kid, key, tk, now, later, claims, hheader, hk, rfl, hd, hn⟩
    refine ⟨some kid, [], _, rfl, ⟨hheader, rfl⟩, kid, [], _, rfl, ⟨rfl, rfl⟩, key, tk, _, rfl, hk,
      now, [⟨.timestamp, now⟩], [⟨.systemTime, later⟩], rfl, follows_perform_iff.2 rfl, ?_⟩
    obtain ⟨-, exp, hexp, -⟩ := claims_of_decode hlib hd
    simp only [hd, hexp, Interaction.Prog.succeeds_bind_iff, succeeds_orInvalid_iff,
      Interaction.Prog.succeeds_pure_iff]
    refine ⟨_, [], _, rfl, ⟨hn.user, rfl⟩, _, [], _, rfl, ⟨hn.tenant, rfl⟩, later, _, [], rfl,
      follows_perform_iff.2 rfl, _, [], [], rfl, ⟨rfl, rfl⟩, rfl, ?_⟩
    obtain ⟨⟨⟨tenant⟩, ⟨user⟩, role⟩, jti, ttl⟩ := principal
    simp only [JwtPrincipal.mk.injEq, Authority.mk.injEq, true_and]
    exact ⟨hn.role, hn.jti, by simpa [hexp] using hn.remainingTtl⟩

/-- **Validating a token leaves the revocations alone.** -/
theorem only_validate (token : String) :
    Only (fun o => o.isStore = false) (a.validate lib token).run := by
  rw [validate]
  refine (only_orInvalid _ _).except_bind fun header => ?_
  refine (only_orInvalid _ _).except_bind fun kid => ?_
  refine (Jwks.only_keyFor kid).except_bind fun key => ?_
  refine (only_perform rfl).except_bind fun now => ?_
  split
  · exact trivial
  · rename_i claims _
    refine (only_orInvalid _ _).except_bind fun user => ?_
    refine (only_orInvalid _ _).except_bind fun tenant => ?_
    split
    · exact (only_perform rfl).except_bind fun now => trivial
    · exact trivial

end Trace

end JwtAuthAdapter

end SettingsService
