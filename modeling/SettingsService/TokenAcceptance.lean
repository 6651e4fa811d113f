import SettingsService.Jwt

/-!
# Which tokens the adapter accepts

The adapter requires an expiry and an issuer, and has issuer and audience compared where they are
present.  It does not require an audience, so a token without one is accepted for any service; and
the library lets a list of issuers pass that contains the one asked for.

Main definitions:

* `Issued` — what a token that is accepted should say, and what the principal should be;
* `AcceptsOnlyIssued` — every validation that succeeds is of such a token;
* `Acceptable` — the token passes every check that is made, for some key and at some time.

Main results:

* `acceptsOnlyIssued_iff` — **only issued tokens are accepted exactly when the token has an audience
  and a single issuer**, or is not acceptable at all.
-/

set_option relaxedAutoImplicit false
set_option autoImplicit false

namespace SettingsService

open Interaction (Prog)
open Interaction.Prog (Follows Served)

variable {Jwk Key : Type}

/-- The role is admin for two texts, in any case. -/
theorem parseRole_eq_admin_iff {s : Option String} : parseRole s = .admin ↔ ∃ r, s = some r ∧
    (eqIgnoreAsciiCase r "admin" = true ∨ eqIgnoreAsciiCase r "administrator" = true) := by
  have h₁ : toAsciiLowercase "admin" = "admin" := by decide
  have h₂ : toAsciiLowercase "administrator" = "administrator" := by decide
  simp only [parseRole, eqIgnoreAsciiCase, h₁, h₂, beq_iff_eq]
  cases s with
  | none => simp only [Option.getD_none, reduceCtorEq, false_and, exists_false, iff_false]; decide
  | some r => simp [or_iff_not_imp_left]

/-- A claim that is a text. -/
theorem bind_optString_eq_some_iff {o : Option (Option Json)} {s : String} :
    o.bind optString = some (some s) ↔ o = some (some (.string s)) := by
  rcases o with _ | _ | j
  · simp
  · simp [optString]
  · cases j <;> simp [optString]

/-! ### What is promised, and what is checked -/

/-- What a token says that was accepted by a validation that ended in the state `w'`, and what its
principal is. -/
structure Issued (lib : JsonWebToken Jwk Key) (a : JwtAuthAdapter) (env : AuthEnv Jwk)
    (token : String) (w' : AuthWorld Jwk) (p : Json) (principal : JwtPrincipal) : Prop where
  /-- The signature verifies under the key of the cache that the token names. -/
  signature : ∃ kid jwk key, lib.decodeHeader token = some (some kid) ∧
    (w'.keys.lookup kid = some jwk ∨ w'.previous.lookup kid = some jwk) ∧
    lib.fromJwk jwk = some key ∧ lib.verifies token key = true
  /-- The payload. -/
  payload : lib.payload token = some p
  /-- The issuer is the one configured. -/
  issuer : p.field "iss" = some (some (.string a.issuer))
  /-- The audience contains the one configured. -/
  audience : ∃ aud, Validation.claim "aud" p = some aud ∧ aud.meets [a.audience] = true
  /-- The expiry is at most the leeway before the time that the library read, in the last call but
  one. -/
  expiry : ∃ exp n, Validation.expiry p = some exp ∧ n + 2 = w'.steps ∧
    asSecs (env.clock n) ≤ exp + Validation.new.leeway
  /-- The tenant is the tenant claim. -/
  tenant : p.field "tenant" = some (some (.string principal.authority.tenant.asStr))
  /-- The user is the subject, or, when there is none, the authorized party. -/
  user : p.field "sub" = some (some (.string principal.authority.user.asStr)) ∨
    (p.field "sub").bind optString = some none ∧
      p.field "azp" = some (some (.string principal.authority.user.asStr))
  /-- The role is admin when the role claim says so, in any case. -/
  role : principal.authority.role = .admin ↔ ∃ r, p.field "role" = some (some (.string r)) ∧
    (eqIgnoreAsciiCase r "admin" = true ∨ eqIgnoreAsciiCase r "administrator" = true)

/-- **Only issued tokens are accepted**: whatever the cache holds, whatever the identity provider
answers, and at any time. -/
def AcceptsOnlyIssued (lib : JsonWebToken Jwk Key) (a : JwtAuthAdapter) (token : String) : Prop :=
  ∀ (env : AuthEnv Jwk) (w w' : AuthWorld Jwk) (principal : JwtPrincipal),
    (a.validate lib token).run.run (AuthOp.exec env) w = (.ok principal, w') →
      ∃ p, Issued lib a env token w' p principal

/-- The token passes every check that is made, for some key and at some time. -/
structure Acceptable (lib : JsonWebToken Jwk Key) (a : JwtAuthAdapter) (token : String) (p : Json) :
    Prop where
  /-- It names a key. -/
  kid : ∃ kid, lib.decodeHeader token = some (some kid)
  /-- Its signature verifies under a key. -/
  signature : ∃ jwk key, lib.fromJwk jwk = some key ∧ lib.verifies token key = true
  /-- The payload. -/
  payload : lib.payload token = some p
  /-- The claims can be read, and there are a tenant and a user. -/
  claims : ∃ claims, Claims.deserialize p = some claims ∧ claims.tenant.isSome ∧
    (claims.sub.or claims.azp).isSome
  /-- No claim that is checked is there twice. -/
  readable : Validation.readable p = true
  /-- There is an expiry. -/
  expiry : (Validation.expiry p).isSome
  /-- There is an issuer, and the one configured is among them. -/
  issuer : ∃ iss, Validation.claim "iss" p = some iss ∧ iss.meets [a.issuer] = true
  /-- If there is an audience, the one configured is in it. -/
  audience : ∀ aud, Validation.claim "aud" p = some aud → aud.meets [a.audience] = true

section Acceptance

variable {lib : JsonWebToken Jwk Key} {a : JwtAuthAdapter} {token : String}

/-- A token that is accepted is acceptable, and it is issued but for the presence of an audience and
the form of its issuer. -/
theorem issued_of_run (hlib : lib.Documented) {env : AuthEnv Jwk} {w w' : AuthWorld Jwk}
    {principal : JwtPrincipal}
    (h : (a.validate lib token).run.run (AuthOp.exec env) w = (.ok principal, w')) :
    ∃ p, Acceptable lib a token p ∧ ((Validation.claim "aud" p).isSome →
      (∃ iss, p.field "iss" = some (some (.string iss))) →
        Issued lib a env token w' p principal) := by
  obtain ⟨tr, htr, hs⟩ := Interaction.Prog.run_eq_iff.1 h
  obtain ⟨kid, key, tk, now, later, claims, hkid, hk, rfl, hd, hn⟩ :=
    (JwtAuthAdapter.follows_validate hlib).1 htr
  obtain ⟨w₁, hs₁, hnow, -, rfl⟩ := Interaction.Prog.served_append.1 hs
  obtain ⟨jwk, hjwk, hcache⟩ := Jwks.served_keyFor hk hs₁
  obtain ⟨hverifies, p, hp, hclaims, hadmits⟩ := (hlib.decode_eq_ok_iff _ _ _ _ _).1 hd
  obtain ⟨hreadable, ⟨exp, hexp, hle⟩, ⟨iss, hiss, hmeets⟩, haud⟩ :=
    JwtAuthAdapter.admits_validation_iff.1 hadmits
  obtain ⟨hazp, hsub, -, -, htenant, hrole⟩ := Claims.deserialize_eq_some_iff.1 hclaims
  refine ⟨p, ⟨⟨kid, hkid⟩, ⟨jwk, key, hjwk, hverifies⟩, hp, ⟨claims, hclaims, by simp [hn.tenant],
    by simp [hn.user]⟩, hreadable, by simp [hexp], ⟨iss, hiss, hmeets⟩, haud⟩,
    fun hsome hsingle => ?_⟩
  refine ⟨⟨kid, jwk, key, hkid, hcache, hjwk, hverifies⟩, hp, ?_, ?_, ?_, ?_, ?_, ?_⟩
  · obtain ⟨s, hsingle⟩ := hsingle
    obtain rfl : iss = .single s := by
      simpa [Validation.claim, hsingle, Json.oneOrMany] using hiss.symm
    obtain rfl : s = a.issuer := by simpa [OneOrMany.meets] using hmeets
    exact hsingle
  · obtain ⟨aud, haud'⟩ := Option.isSome_iff_exists.1 hsome
    exact ⟨aud, haud', haud aud haud'⟩
  · exact ⟨exp, w₁.steps, hexp, rfl, by rw [← hnow] at hle; exact hle⟩
  · rw [hn.tenant] at htenant
    exact bind_optString_eq_some_iff.1 htenant
  · have huser := hn.user
    cases hs : claims.sub with
    | some s =>
        rw [hs, Option.some_or, Option.some.injEq] at huser
        rw [hs, huser] at hsub
        exact .inl (bind_optString_eq_some_iff.1 hsub)
    | none =>
        rw [hs, Option.none_or] at huser
        rw [huser] at hazp
        exact .inr ⟨hs ▸ hsub, bind_optString_eq_some_iff.1 hazp⟩
  · rw [hn.role, parseRole_eq_admin_iff]
    simp only [← bind_optString_eq_some_iff, hrole, Option.some.injEq]

/-- An acceptable token is accepted when its key is in the cache and it is early enough. -/
theorem run_of_acceptable (hlib : lib.Documented) {p : Json} (h : Acceptable lib a token p) :
    ∃ (env : AuthEnv Jwk) (w w' : AuthWorld Jwk) (principal : JwtPrincipal),
      (a.validate lib token).run.run (AuthOp.exec env) w = (.ok principal, w') := by
  obtain ⟨kid, hkid⟩ := h.kid
  obtain ⟨jwk, key, hjwk, hverifies⟩ := h.signature
  obtain ⟨claims, hclaims, htenant, huser⟩ := h.claims
  obtain ⟨exp, hexp⟩ := Option.isSome_iff_exists.1 h.expiry
  obtain ⟨tenant, htenant⟩ := Option.isSome_iff_exists.1 htenant
  obtain ⟨user, huser⟩ := Option.isSome_iff_exists.1 huser
  have hadmits : a.validation.admits p (asSecs 0) = true :=
    JwtAuthAdapter.admits_validation_iff.2
      ⟨h.readable, ⟨exp, hexp, Nat.zero_le _⟩, h.issuer, h.audience⟩
  have hd := (hlib.decode_eq_ok_iff _ _ _ _ _).2 ⟨hverifies, p, h.payload, hclaims, hadmits⟩
  -- the key is in the cache, and the clock stands at the epoch
  let env : AuthEnv Jwk := ⟨fun _ => 0, fun _ _ _ => Nat.le_refl 0, fun _ => none⟩
  let w : AuthWorld Jwk := ⟨0, AList.insert kid jwk ∅, ∅, 0, ∅⟩
  refine ⟨env, w, { w with steps := 3 }, ⟨⟨⟨tenant⟩, ⟨user⟩, parseRole claims.role⟩,
    claims.jti.getD "", (claims.exp.getD 0 - asSecs 0) * second⟩,
    Interaction.Prog.run_eq_iff.2 ⟨[⟨.keys kid, some jwk⟩] ++ [⟨.timestamp, 0⟩, ⟨.systemTime, 0⟩],
      (JwtAuthAdapter.follows_validate hlib).2 ⟨kid, key, _, 0, 0, claims, hkid,
        Jwks.follows_keyFor hjwk, rfl, hd, htenant, huser, rfl, rfl, rfl⟩, ?_⟩⟩
  exact ⟨AList.lookup_insert _, rfl, rfl, rfl⟩

/-- **Only issued tokens are accepted exactly when the token has an audience and a single issuer**,
or is not acceptable at all. -/
theorem acceptsOnlyIssued_iff (hlib : lib.Documented) : AcceptsOnlyIssued lib a token ↔
    ∀ p, Acceptable lib a token p → (Validation.claim "aud" p).isSome = true ∧
      ∃ iss, p.field "iss" = some (some (.string iss)) := by
  constructor
  · intro honly p hp
    obtain ⟨env, w, w', principal, hrun⟩ := run_of_acceptable hlib hp
    obtain ⟨p', hissued⟩ := honly env w w' principal hrun
    obtain rfl : p = p' := Option.some.inj (hp.payload.symm.trans hissued.payload)
    obtain ⟨aud, haud, -⟩ := hissued.audience
    exact ⟨by rw [haud]; rfl, a.issuer, hissued.issuer⟩
  · intro hcond env w w' principal hrun
    obtain ⟨p, hp, hissued⟩ := issued_of_run hlib hrun
    obtain ⟨haud, hiss⟩ := hcond p hp
    exact ⟨p, hissued haud hiss⟩

end Acceptance

/-- A token that has both. -/
theorem acceptsOnlyIssued_token :
    AcceptsOnlyIssued (Sample.lib Sample.token) ⟨"idp", "settings"⟩ "t" :=
  (acceptsOnlyIssued_iff (Sample.documented_lib _)).2 fun _ hp => by
    cases hp.payload
    exact ⟨rfl, "idp", rfl⟩

/-! ### A token without an audience -/

namespace Sample

/-- A token of Alice that any service would do for. -/
def anyAudience : String → Option Json
  | "t" => some (.object [("iss", .string "idp"), ("sub", .string "alice"),
      ("tenant", .string "acme"), ("role", .string "Admin"), ("exp", .number (.posInt 100))])
  | _ => none

theorem acceptable_anyAudience : Acceptable (lib anyAudience) ⟨"idp", "settings"⟩ "t"
    (.object [("iss", .string "idp"), ("sub", .string "alice"), ("tenant", .string "acme"),
      ("role", .string "Admin"), ("exp", .number (.posInt 100))]) where
  kid := ⟨"k1", rfl⟩
  signature := ⟨"k1", "k1", rfl, rfl⟩
  payload := rfl
  claims := ⟨⟨none, some "alice", none, some 100, some "acme", some "Admin"⟩, rfl, rfl, rfl⟩
  readable := rfl
  expiry := rfl
  issuer := ⟨.single "idp", rfl, rfl⟩
  audience _ h := by cases h

end Sample

/-- A token without an audience is accepted. -/
theorem not_acceptsOnlyIssued : ¬ ∀ (lib : JsonWebToken String String) (a : JwtAuthAdapter)
    (token : String), lib.Documented → AcceptsOnlyIssued lib a token := by
  intro h
  obtain ⟨env, w, w', principal, hrun⟩ :=
    run_of_acceptable (Sample.documented_lib _) Sample.acceptable_anyAudience
  obtain ⟨p, hp⟩ := h (Sample.lib Sample.anyAudience) ⟨"idp", "settings"⟩ "t"
    (Sample.documented_lib _) env w w' principal hrun
  obtain ⟨aud, haud, -⟩ := hp.audience
  cases hp.payload
  cases haud

end SettingsService
