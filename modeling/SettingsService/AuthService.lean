import SettingsService.Deadlines
import SettingsService.Jwt

/-!
# Validating and logging out

`AuthService` over the token adapter and the in-memory revocation store, and its calls in flight.

A logout counts the rest of the lifetime of its token from one clock and stores a deadline by
another; the adapter accepts a token up to the leeway past its expiry.  So a token that was logged
out is accepted again when it is looked up after the deadline of its entry and within the leeway.

Main definitions:

* `AuthService.validateToken`, `AuthService.logout`, `AuthService.revoke` — the methods;
* `AuthRequest`, `AuthConfig` — the calls, and calls in flight;
* `AuthConfig.NeverAcceptedAgain` — a token that was logged out is not accepted by a later call;
* `AuthConfig.ChecksInTime` — later calls look the token up before its entry has expired.

Main results:

* `prunes_replay` — the store is the record of the revocations, less some that have expired;
* `AuthConfig.neverAcceptedAgain_iff` — **a logged-out token is refused exactly when it is looked up
  in time**.
-/

set_option relaxedAutoImplicit false
set_option autoImplicit false

namespace SettingsService

open Interaction (Prog Snapshot Event Reachable own)
open Interaction.Prog (Follows Only)
open Deadlines (record live Prunes)

/-! ### The service -/

namespace AuthService

variable {Jwk Key : Type} (lib : JsonWebToken Jwk Key) (a : JwtAuthAdapter)

/-- `validate_token`. -/
def validateToken (token : String) : Auth Jwk Authority := do
  let principal ← a.validate lib token
  -- one lock section: the entry is looked up, and removed when it has expired
  if ← perform (.isRevoked principal.jti) then throw .revoked
  else return principal.authority

/-- `InMemoryRevocationStore::revoke`. -/
def revoke (jti : String) (ttl : ℕ) : Auth Jwk Unit := do
  let now ← perform .instant
  let expiry := if ttl = 0 then now else now + ttl
  perform (.insert jti expiry)

/-- `logout`. -/
def logout (token : String) : Auth Jwk Unit := do
  let principal ← a.validate lib token
  revoke principal.jti principal.remainingTtl

end AuthService

/-- A call of the service. -/
inductive AuthRequest
  | validateToken (token : String)
  | logout (token : String)
  deriving DecidableEq

/-- What a call returns when it succeeds. -/
inductive AuthReply
  | authority (authority : Authority)
  | loggedOut
  deriving DecidableEq

/-- What a call returns. -/
abbrev AuthResult : Type := Except AuthError AuthReply

/-- The program of a call. -/
def AuthRequest.prog {Jwk Key : Type} (lib : JsonWebToken Jwk Key) (a : JwtAuthAdapter) :
    AuthRequest → Prog (AuthOp Jwk) AuthOp.Ret AuthResult
  | validateToken token => ExceptT.run do
      let authority ← AuthService.validateToken lib a token
      return .authority authority
  | logout token => ExceptT.run do
      let _ ← AuthService.logout lib a token
      return .loggedOut

/-- Calls of the service in flight. -/
abbrev AuthConfig (Jwk : Type) : Type :=
  Snapshot (AuthOp Jwk) AuthOp.Ret (AuthWorld Jwk) AuthRequest AuthResult

/-- A call of a process, as an event. -/
abbrev AuthEvent (Jwk : Type) : Type := Event (AuthOp Jwk) AuthOp.Ret (AuthWorld Jwk) AuthRequest

/-! ### The store and the record of the revocations -/

/-- The id a call revokes, and until when. -/
def AuthOp.revokes {Jwk : Type} : AuthOp Jwk → Option (String × Instant)
  | insert jti expiry => some (jti, expiry)
  | _ => none

section Store

variable {Jwk : Type} {env : AuthEnv Jwk} {w₀ : AuthWorld Jwk}

/-- The id an event revokes, and until when. -/
def revocation (e : AuthEvent Jwk) : Option (String × Instant) := e.op.revokes

theorem steps_replay (env : AuthEnv Jwk) (hw₀ : w₀.steps = 0) (hist : List (AuthEvent Jwk)) :
    (Interaction.replay (AuthOp.exec env) w₀ hist).steps = hist.length := by
  induction hist using List.reverseRecOn with
  | nil => exact hw₀
  | append_singleton hist e ih => rw [Interaction.replay_snoc, AuthOp.exec_steps, ih]; simp

/-- A lookup answers whether the id is live. -/
theorem isRevoked_fst (store : InMemoryRevocationStore) (jti : String) (now : Instant) :
    (store.isRevoked jti now).1 = live (fun j => store.lookup j) jti now := by
  rw [InMemoryRevocationStore.isRevoked, live]
  cases store.lookup jti with
  | none => rfl
  | some d =>
      by_cases hd : now < d <;> simp [hd]

/-- A lookup removes at most an entry that is not live. -/
theorem isRevoked_snd (store : InMemoryRevocationStore) (jti : String) (now : Instant) :
    (store.isRevoked jti now).2 = store ∨ live (fun j => store.lookup j) jti now = false ∧
      (fun j => (store.isRevoked jti now).2.lookup j) =
        Function.update (fun j => store.lookup j) jti none := by
  rw [← isRevoked_fst, InMemoryRevocationStore.isRevoked]
  cases store.lookup jti with
  | none => exact .inl rfl
  | some d =>
      by_cases hd : now < d
      · exact .inl (by simp [hd])
      · refine .inr ⟨by simp [hd], funext fun j => ?_⟩
        simp only [hd, if_false]
        rcases eq_or_ne j jti with rfl | hj
        · rw [AList.lookup_erase, Function.update_self]
        · rw [AList.lookup_erase_ne hj, Function.update_of_ne hj]

/-- A revocation gives its id a deadline. -/
theorem lookup_insert_eq (store : InMemoryRevocationStore) (jti : String) (expiry : Instant) :
    (fun j => (store.insert jti expiry).lookup j) =
      Function.update (fun j => store.lookup j) jti (some expiry) := by
  funext j
  rcases eq_or_ne j jti with rfl | hj
  · rw [AList.lookup_insert, Function.update_self]
  · rw [AList.lookup_insert_ne hj, Function.update_of_ne hj]

/-- What a lookup leaves is still a record less some deadlines that have passed. -/
theorem prunes_isRevoked {store : InMemoryRevocationStore} {full : String → Option Instant}
    {now : Instant} (h : Prunes (fun j => store.lookup j) full now) (jti : String) :
    Prunes (fun j => (store.isRevoked jti now).2.lookup j) full now := by
  rcases isRevoked_snd store jti now with hsame | ⟨hlive, hremoved⟩
  · rw [hsame]
    exact h
  · rw [hremoved]
    exact h.remove (by rwa [← h.live_eq])

/-- **The store is the record of the revocations**, less some that have expired. -/
theorem prunes_replay (env : AuthEnv Jwk) (w₀ : AuthWorld Jwk) (hw₀ : w₀.steps = 0)
    (hr₀ : w₀.revoked = ∅) (hist : List (AuthEvent Jwk)) :
    Prunes (fun j => (Interaction.replay (AuthOp.exec env) w₀ hist).revoked.lookup j)
      (record revocation hist) (env.clock hist.length) := by
  induction hist using List.reverseRecOn with
  | nil =>
      rw [Interaction.replay_nil, hr₀]
      exact Prunes.refl _ _
  | append_singleton hist e ih =>
      have hsteps := steps_replay env hw₀ hist
      have hclock : env.clock hist.length ≤ env.clock (hist ++ [e]).length :=
        env.clock_mono (by simp)
      rw [Interaction.replay_snoc, Deadlines.record_snoc]
      refine Prunes.mono ?_ hclock
      set w := Interaction.replay (AuthOp.exec env) w₀ hist with hw
      cases ho : e.op with
      | insert jti expiry =>
          simp only [revocation, ho, AuthOp.revokes, AuthOp.exec, lookup_insert_eq]
          exact ih.insert jti expiry
      | isRevoked jti =>
          simp only [revocation, ho, AuthOp.revokes, AuthOp.exec, hsteps]
          exact prunes_isRevoked ih jti
      | _ => simpa only [revocation, ho, AuthOp.revokes, AuthOp.exec, AuthWorld.tick] using ih

end Store

/-! ### What the calls do -/

section Trace

variable {Jwk Key : Type} {lib : JsonWebToken Jwk Key} {a : JwtAuthAdapter} {token : String}
  {tr : List (Interaction.Answered (AuthOp Jwk) AuthOp.Ret)} {principal : JwtPrincipal}

/-- The deadline a logout stores for its principal when the time is `now`. -/
def deadline (principal : JwtPrincipal) (now : Instant) : Instant :=
  if principal.remainingTtl = 0 then now else now + principal.remainingTtl

/-- A call of `validate_token` that is accepted has looked its token up and not found it. -/
theorem returns_validateToken_iff {reply : AuthReply} :
    Follows ((AuthRequest.validateToken token).prog lib a) tr (.pure (.ok reply)) ↔
      ∃ tv principal, Follows (a.validate lib token).run tv (.pure (.ok principal)) ∧
        tr = tv ++ [⟨.isRevoked principal.jti, false⟩] ∧
          reply = .authority principal.authority := by
  simp only [AuthRequest.prog, AuthService.validateToken, Interaction.Prog.succeeds_bind_iff,
    Interaction.Prog.succeeds_pure_iff]
  constructor
  · rintro ⟨authority, _, _, rfl, ⟨principal, tv, _, rfl, hv, revoked, _, _, rfl, hr, h⟩, rfl, rfl⟩
    obtain rfl := follows_perform_iff.1 hr
    cases revoked with
    | true => exact absurd h Interaction.Prog.not_succeeds_throw
    | false =>
        obtain ⟨rfl, rfl⟩ := Interaction.Prog.succeeds_pure_iff.1 h
        exact ⟨tv, principal, hv, by simp, rfl⟩
  · rintro ⟨tv, principal, hv, rfl, rfl⟩
    exact ⟨_, _, [], (List.append_nil _).symm, ⟨principal, tv, _, rfl, hv, false, _, [], rfl,
      follows_perform_iff.2 rfl, Interaction.Prog.succeeds_pure_iff.2 ⟨rfl, rfl⟩⟩, rfl, rfl⟩

/-- A call of `logout` that succeeds has stored a deadline. -/
theorem returns_logout_iff {reply : AuthReply} :
    Follows ((AuthRequest.logout token).prog lib a) tr (.pure (.ok reply)) ↔
      reply = .loggedOut ∧ ∃ tv principal now,
        Follows (a.validate lib token).run tv (.pure (.ok principal)) ∧
        tr = tv ++ [⟨.instant, now⟩, ⟨.insert principal.jti (deadline principal now), ()⟩] := by
  simp only [AuthRequest.prog, AuthService.logout, AuthService.revoke,
    Interaction.Prog.succeeds_bind_iff, Interaction.Prog.succeeds_pure_iff]
  constructor
  · rintro ⟨_, _, _, rfl, ⟨principal, tv, _, rfl, hv, now, _, _, rfl, hnow, hins⟩, rfl, rfl⟩
    obtain rfl := follows_perform_iff.1 hnow
    obtain rfl := follows_perform_iff.1 hins
    exact ⟨rfl, tv, principal, now, hv, by simp [deadline]⟩
  · rintro ⟨rfl, tv, principal, now, hv, rfl⟩
    exact ⟨(), _, [], (List.append_nil _).symm, ⟨principal, tv, _, rfl, hv, now, _, _, rfl,
      follows_perform_iff.2 rfl, follows_perform_iff.2 rfl⟩, rfl, rfl⟩

/-- **Validating a token revokes none.** -/
theorem only_validateToken (token : String) :
    Only (fun o => o.revokes = none) (AuthService.validateToken lib a token).run := by
  have hstore : ∀ o : AuthOp Jwk, o.isStore = false → o.revokes = none := by
    intro o ho
    cases o with
    | insert jti expiry => cases ho
    | _ => rfl
  have hv : Only (fun o : AuthOp Jwk => o.revokes = none) (a.validate lib token).run :=
    (a.only_validate token).imp hstore
  refine hv.except_bind fun principal => ?_
  refine Only.except_bind (S := fun o : AuthOp Jwk => o.revokes = none) ⟨rfl, fun _ => trivial⟩
    fun revoked => ?_
  cases revoked <;> exact trivial

/-- A call that comes to storing a deadline is a logout. -/
theorem reaches_insert {req : AuthRequest} {jti : String} {expiry : Instant}
    {k : Unit → Prog (AuthOp Jwk) AuthOp.Ret AuthResult}
    (h : Follows (req.prog lib a) tr (.call (.insert jti expiry) k)) :
    ∃ token tv principal now, req = .logout token ∧
      Follows (a.validate lib token).run tv (.pure (.ok principal)) ∧ tr = tv ++ [⟨.instant, now⟩] ∧
      jti = principal.jti ∧ expiry = deadline principal now := by
  cases req with
  | validateToken token =>
      obtain ⟨k', h⟩ := Interaction.Prog.reaches_of_bind (fun _ => ⟨_, rfl⟩) h
      exact absurd ((only_validateToken token).of_follows h).1 (by simp [AuthOp.revokes])
  | logout token =>
      obtain ⟨k', h⟩ := Interaction.Prog.reaches_of_bind (fun _ => ⟨_, rfl⟩) h
      obtain ⟨principal, tv, t, rfl, hv, h⟩ :=
        (a.only_validate token).reaches_bind (by simp [AuthOp.isStore]) h
      obtain ⟨now, t₁, t₂, rfl, hnow, hins⟩ :=
        (only_perform rfl).reaches_bind (by simp [AuthOp.isStore]) h
      obtain rfl := follows_perform_iff.1 hnow
      obtain ⟨rfl, hop⟩ := reaches_perform hins
      cases hop
      exact ⟨token, tv, principal, now, rfl, hv, by simp, rfl, rfl⟩

/-- A call that comes to looking its token up has validated it. -/
theorem reaches_isRevoked {req : AuthRequest} {jti : String}
    {k : Bool → Prog (AuthOp Jwk) AuthOp.Ret AuthResult}
    (h : Follows (req.prog lib a) tr (.call (.isRevoked jti) k)) :
    ∃ token principal, req = .validateToken token ∧
      Follows (a.validate lib token).run tr (.pure (.ok principal)) ∧ jti = principal.jti := by
  cases req with
  | validateToken token =>
      obtain ⟨k', h⟩ := Interaction.Prog.reaches_of_bind (fun _ => ⟨_, rfl⟩) h
      obtain ⟨principal, tv, t, rfl, hv, h⟩ :=
        (a.only_validate token).reaches_bind (by simp [AuthOp.isStore]) h
      -- what follows the lookup is a decision, so the call is the lookup
      have hdone : ∀ revoked : Bool, ∃ r, (if revoked then throw .revoked
          else return principal.authority : Auth Jwk Authority).run = .pure r := by
        intro revoked
        cases revoked <;> exact ⟨_, rfl⟩
      obtain ⟨k', h⟩ := Interaction.Prog.reaches_of_bind hdone h
      obtain ⟨rfl, hop⟩ := reaches_perform h
      cases hop
      exact ⟨token, principal, rfl, by simpa using hv, rfl⟩
  | logout token =>
      obtain ⟨k', h⟩ := Interaction.Prog.reaches_of_bind (fun _ => ⟨_, rfl⟩) h
      obtain ⟨principal, tv, t, rfl, hv, h⟩ :=
        (a.only_validate token).reaches_bind (by simp [AuthOp.isStore]) h
      obtain ⟨now, t₁, t₂, rfl, hnow, hins⟩ :=
        (only_perform rfl).reaches_bind (by simp [AuthOp.isStore]) h
      cases (reaches_perform hins).2

end Trace

/-! ### Calls in flight -/

/-- The token a call is made with. -/
def AuthRequest.token : AuthRequest → String
  | validateToken token => token
  | logout token => token

/-- Every token of these calls has its own id. -/
def DistinctJti {Jwk Key : Type} (lib : JsonWebToken Jwk Key) (reqs : List AuthRequest) : Prop :=
  ∀ r ∈ reqs, ∀ r' ∈ reqs, ∀ id, lib.tokenId r.token = some id → lib.tokenId r'.token = some id →
    r.token = r'.token

namespace AuthConfig

variable {Jwk Key : Type}

/-- A logout of the token had succeeded before the call at `j` began. -/
def LoggedOutBefore (c : AuthConfig Jwk) (token : String) (j : ℕ) : Prop :=
  ∃ i p, c.procs[i]? = some p ∧ p.req = .logout token ∧ p.prog = .pure (.ok .loggedOut) ∧
    Interaction.Precedes c.hist i j

/-- **A token that was logged out is never accepted again.** -/
def NeverAcceptedAgain (c : AuthConfig Jwk) : Prop :=
  ∀ j q token, c.procs[j]? = some q → q.req = .validateToken token → c.LoggedOutBefore token j →
    ∀ reply, q.prog ≠ .pure (.ok reply)

/-- The last logout of the token to store its deadline before the call at position `n` of the
history read the time `a` for the rest of the lifetime and the time `b` for the deadline. -/
def LatestLogout (c : AuthConfig Jwk) (token : String) (n : ℕ) (a b : Instant) : Prop :=
  ∃ m e pre, m < n ∧ c.hist[m]? = some e ∧ e.req = .logout token ∧ (revocation e).isSome ∧
    own e.who (c.hist.take m) = pre ++ [⟨.systemTime, a⟩, ⟨.instant, b⟩] ∧
    ∀ (m' : ℕ) (e' : AuthEvent Jwk), m < m' → m' < n → c.hist[m']? = some e' →
      e'.req = .logout token → revocation e' = none

/-- A call of `validate_token` that begins after a logout of its token, if it comes to looking the
token up, does so while the entry of the last logout lives: before the time `b` at which that logout
stored it and as many seconds as it had counted, at time `a`, to the expiry of the token. -/
def ChecksInTime (lib : JsonWebToken Jwk Key) (env : AuthEnv Jwk) (c : AuthConfig Jwk) : Prop :=
  ∀ j q token, c.procs[j]? = some q → q.req = .validateToken token → c.LoggedOutBefore token j →
    ∀ (n : ℕ) (e : AuthEvent Jwk) (jti : String), c.hist[n]? = some e → e.who = j →
      e.op = .isRevoked jti → ∀ a b, c.LatestLogout token n a b →
        env.clock n < b + (lib.tokenExp token - asSecs a) * second

variable {lib : JsonWebToken Jwk Key} {a : JwtAuthAdapter} {env : AuthEnv Jwk} {t₀ : Instant}
  {reqs : List AuthRequest} {c : AuthConfig Jwk}

/-- What a call knows about its token once it has validated it. -/
theorem token_of_validate (hlib : lib.Documented) {token : String}
    {tr : List (Interaction.Answered (AuthOp Jwk) AuthOp.Ret)} {principal : JwtPrincipal}
    (h : Follows (a.validate lib token).run tr (.pure (.ok principal))) :
    lib.tokenId token = some principal.jti ∧ ∃ tk now later,
      tr = tk ++ [⟨.timestamp, now⟩, ⟨.systemTime, later⟩] ∧
      principal.remainingTtl = (lib.tokenExp token - asSecs later) * second := by
  obtain ⟨kid, key, tk, now, later, claims, -, -, rfl, hd, hn⟩ :=
    (JwtAuthAdapter.follows_validate hlib).1 h
  obtain ⟨hclaims, -⟩ := JwtAuthAdapter.claims_of_decode hlib hd
  refine ⟨?_, tk, now, later, rfl, ?_⟩
  · rw [JsonWebToken.tokenId, hclaims, hn.jti]
    rfl
  · rw [JsonWebToken.tokenExp, hclaims]
    exact hn.remainingTtl

theorem getElem?_take_eq_some_iff {m n : ℕ} {e : AuthEvent Jwk} :
    (c.hist.take n)[m]? = some e ↔ m < n ∧ c.hist[m]? = some e := by
  rw [List.getElem?_take]
  split_ifs with hm <;> simp [hm]

theorem deadline_eq (principal : JwtPrincipal) (now : Instant) :
    deadline principal now = now + principal.remainingTtl := by
  rw [deadline]
  split_ifs with h
  · rw [h, Nat.add_zero]
  · rfl

variable (hlib : lib.Documented)
  (hc : Reachable (AuthOp.exec env) (fun _ _ => True)
    (Snapshot.init (.new t₀) (AuthRequest.prog lib a) reqs) c)
include hlib hc

/-- A deadline is stored by a logout, from its two readings of the clock. -/
theorem logout_of_revocation {m : ℕ} {e : AuthEvent Jwk} {jti : String} {expiry : Instant}
    (he : c.hist[m]? = some e) (hr : revocation e = some (jti, expiry)) :
    ∃ token pre x y, e.req = .logout token ∧ lib.tokenId token = some jti ∧
      own e.who (c.hist.take m) = pre ++ [⟨.systemTime, x⟩, ⟨.instant, y⟩] ∧
      expiry = y + (lib.tokenExp token - asSecs x) * second := by
  obtain ⟨-, -, k, hk⟩ := hc.next he
  obtain ⟨i, req, o, r, s, mark⟩ := e
  cases o with
  | insert jti' expiry' =>
      obtain ⟨rfl, rfl⟩ : jti' = jti ∧ expiry' = expiry := by
        simpa [revocation, AuthOp.revokes] using hr
      obtain ⟨token, tv, principal, y, hreq, hv, hown, rfl, rfl⟩ := reaches_insert hk
      obtain ⟨hid, tk, now, x, rfl, httl⟩ := token_of_validate hlib hv
      refine ⟨token, tk ++ [⟨.timestamp, now⟩], x, y, hreq, hid, by simpa using hown, ?_⟩
      rw [deadline_eq, httl]
  | _ => simp [revocation, AuthOp.revokes] at hr

/-- Only a validated token is looked up. -/
theorem validateToken_of_isRevoked {n : ℕ} {e : AuthEvent Jwk} {jti : String}
    (he : c.hist[n]? = some e) (ho : e.op = .isRevoked jti) :
    ∃ token, e.req = .validateToken token ∧ lib.tokenId token = some jti := by
  obtain ⟨-, -, k, hk⟩ := hc.next he
  obtain ⟨i, req, o, r, s, mark⟩ := e
  obtain rfl : o = .isRevoked jti := ho
  obtain ⟨token, principal, hreq, hv, rfl⟩ := reaches_isRevoked hk
  exact ⟨token, hreq, (token_of_validate hlib hv).1⟩

omit hlib in
/-- A call is answered at its position in the history. -/
theorem reply_eq {n i : ℕ} {req : AuthRequest} {o : AuthOp Jwk} {r : o.Ret} {s : AuthWorld Jwk}
    {mark : ℕ} (he : c.hist[n]? = some ⟨i, req, o, r, s, mark⟩) :
    s.steps = n ∧ r = (o.exec env s).1 := by
  obtain ⟨hbefore, hreply, -⟩ := hc.next he
  refine ⟨?_, hreply⟩
  have hlen : (c.hist.take n).length = n := by
    have := (List.getElem?_eq_some_iff.1 he).1
    rw [List.length_take]
    omega
  rw [show s = _ from hbefore, steps_replay _ rfl, hlen]

omit hlib in
/-- A lookup is answered by the record of the revocations. -/
theorem reply_isRevoked {n i : ℕ} {req : AuthRequest} {jti : String} {r : Bool} {s : AuthWorld Jwk}
    {mark : ℕ} (he : c.hist[n]? = some ⟨i, req, .isRevoked jti, r, s, mark⟩) :
    r = live (record revocation (c.hist.take n)) jti (env.clock n) := by
  obtain ⟨hsteps, hreply⟩ := reply_eq hc he
  have hbefore : s = Interaction.replay (AuthOp.exec env) (.new t₀) (c.hist.take n) :=
    (hc.next he).before
  have hlen : (c.hist.take n).length = n := by
    have h := @steps_replay _ (.new t₀) env rfl (c.hist.take n)
    rw [← h, ← hbefore, hsteps]
  have hprunes := prunes_replay env (.new t₀) rfl rfl (c.hist.take n)
  rw [hlen, ← hbefore] at hprunes
  rw [← hprunes.live_eq, ← isRevoked_fst, ← hsteps]
  exact hreply

omit hlib in
/-- Two logouts of tokens with one id are logouts of one token. -/
theorem token_unique (hjti : DistinctJti lib reqs) {m : ℕ} {e : AuthEvent Jwk}
    {token token' jti : String} (he : c.hist[m]? = some e) (hreq : e.req = .logout token')
    (hid' : lib.tokenId token' = some jti) (hid : lib.tokenId token = some jti)
    (hmem : ∃ r ∈ reqs, r.token = token) : token' = token := by
  obtain ⟨r, hr, rfl⟩ := hmem
  have hmem' : AuthRequest.logout token' ∈ reqs :=
    List.mem_of_getElem? (hreq ▸ hc.req_of_event he)
  exact hjti _ hmem' r hr jti hid' hid

/-- **The last deadline stored for an id** is the one of the last logout of its token. -/
theorem record_eq_some_iff_latestLogout (hjti : DistinctJti lib reqs) {n : ℕ} {token jti : String}
    (hid : lib.tokenId token = some jti) (hmem : ∃ r ∈ reqs, r.token = token) {expiry : Instant} :
    record revocation (c.hist.take n) jti = some expiry ↔
      ∃ x y, c.LatestLogout token n x y ∧
        expiry = y + (lib.tokenExp token - asSecs x) * second := by
  rw [Deadlines.record_eq_some_iff]
  constructor
  · rintro ⟨m, ⟨e, he, hr⟩, hlast⟩
    obtain ⟨hm, he⟩ := getElem?_take_eq_some_iff.1 he
    obtain ⟨token', pre, x, y, hreq, hid', hown, rfl⟩ := logout_of_revocation hlib hc he hr
    obtain rfl := token_unique hc hjti he hreq hid' hid hmem
    refine ⟨x, y, ⟨m, e, pre, hm, he, hreq, by rw [hr]; rfl, hown, ?_⟩, rfl⟩
    intro m' e' hmm' hm' he' hreq'
    cases hr' : revocation e' with
    | none => rfl
    | some kd =>
        obtain ⟨jti', d'⟩ := kd
        obtain ⟨token₁, -, -, -, hreq₁, hid₁, -⟩ := logout_of_revocation hlib hc he' hr'
        obtain rfl : token' = token₁ := by simpa [hreq'] using hreq₁
        obtain rfl : jti = jti' := by simpa [hid] using hid₁
        exact absurd hr' (hlast m' e' d' hmm' (getElem?_take_eq_some_iff.2 ⟨hm', he'⟩))
  · rintro ⟨x, y, ⟨m, e, pre, hm, he, hreq, hsome, hown, hlast⟩, rfl⟩
    obtain ⟨⟨jti', d⟩, hr⟩ := Option.isSome_iff_exists.1 hsome
    obtain ⟨token', pre', x', y', hreq', hid', hown', rfl⟩ := logout_of_revocation hlib hc he hr
    obtain rfl : token = token' := by simpa [hreq] using hreq'
    obtain rfl : jti = jti' := by simpa [hid] using hid'
    obtain ⟨-, hxy⟩ := List.append_inj' (hown.symm.trans hown') rfl
    obtain ⟨rfl, rfl⟩ : x = x' ∧ y = y' := by simpa using hxy
    refine ⟨m, ⟨e, getElem?_take_eq_some_iff.2 ⟨hm, he⟩, hr⟩, fun m' e' d' hmm' he' hr' => ?_⟩
    obtain ⟨hm', he'⟩ := getElem?_take_eq_some_iff.1 he'
    obtain ⟨token₁, -, -, -, hreq₁, hid₁, -⟩ := logout_of_revocation hlib hc he' hr'
    have htoken : token₁ = token := token_unique hc hjti he' hreq₁ hid₁ hid hmem
    rw [hlast m' e' hmm' hm' he' (htoken ▸ hreq₁)] at hr'
    cases hr'

omit hlib in
/-- A call whose lookup found nothing is accepted. -/
theorem accepted_of_not_revoked {n : ℕ} {jti : String} {i mark : ℕ} {req : AuthRequest}
    {s : AuthWorld Jwk} {q : Interaction.Proc (AuthOp Jwk) AuthOp.Ret AuthRequest AuthResult}
    (he : c.hist[n]? = some ⟨i, req, .isRevoked jti, false, s, mark⟩) (hq : c.procs[i]? = some q) :
    ∃ reply, q.prog = .pure (.ok reply) := by
  obtain ⟨-, -, k, hk⟩ := hc.next he
  obtain ⟨token, principal, hreq, hv, rfl⟩ := reaches_isRevoked hk
  obtain rfl : req = .validateToken token := hreq
  have hreqq : q.req = .validateToken token := by
    have h₁ := hc.req_of_event he
    have h₂ := hc.req_of_proc hq
    exact Option.some.inj (h₂.symm.trans h₁)
  have hfollows := hc.follows hq
  rw [hreqq, Interaction.own_eq_of_getElem? he, List.append_cons] at hfollows
  obtain ⟨m, hm, hrest⟩ := hfollows.of_append
  have hok := (returns_validateToken_iff (a := a)).2 ⟨_, principal, hv, rfl, rfl⟩
  rw [hm.unique hok, Interaction.Prog.follows_pure_iff] at hrest
  exact ⟨_, hrest.2⟩

/-- The deadline that the logouts before a lookup have left for its token. -/
theorem exists_latestLogout (hjti : DistinctJti lib reqs) {j n : ℕ} {e : AuthEvent Jwk}
    {token jti : String} (hlog : c.LoggedOutBefore token j) (he : c.hist[n]? = some e)
    (hj : e.who = j) (hreq : e.req = .validateToken token)
    (hid : lib.tokenId token = some jti) : ∃ x y, c.LatestLogout token n x y := by
  obtain ⟨i, p, hp, hpreq, hdone, hprec⟩ := hlog
  have hfollows := hc.follows hp
  rw [hpreq, hdone] at hfollows
  obtain ⟨-, tv, principal, now, hv, hown⟩ := returns_logout_iff.1 hfollows
  have hins : (⟨.insert principal.jti (deadline principal now), ()⟩ :
      Interaction.Answered (AuthOp Jwk) AuthOp.Ret) ∈ own i c.hist := by simp [hown]
  obtain ⟨m, e', he', hi, hx⟩ := Interaction.mem_own_iff.1 hins
  have hop : e'.op = .insert principal.jti (deadline principal now) := (congrArg Sigma.fst hx).symm
  have hij : i ≠ j := by
    rintro rfl
    have h₁ := hc.req_of_event he
    rw [hj, hc.req_of_proc hp, hpreq, hreq] at h₁
    cases h₁
  have hmn : m < n := hprec.lt hij he' he hi hj
  have hjti' : principal.jti = jti :=
    Option.some.inj ((token_of_validate hlib hv).1.symm.trans hid)
  have he'n : (c.hist.take n)[m]? = some e' := by rw [List.getElem?_take, if_pos hmn, he']
  have hgiven : revocation e' = some (jti, deadline principal now) := by
    rw [revocation, hop, hjti']
    rfl
  obtain ⟨d, hd⟩ := Deadlines.exists_record revocation he'n hgiven
  have hmem : ∃ r ∈ reqs, r.token = token :=
    ⟨_, List.mem_of_getElem? (hc.req_of_event he), by rw [hreq]; rfl⟩
  obtain ⟨x, y, hlatest, -⟩ := (record_eq_some_iff_latestLogout hlib hc hjti hid hmem).1 hd
  exact ⟨x, y, hlatest⟩

/-- **A logged-out token is refused exactly when it is looked up in time.** -/
theorem neverAcceptedAgain_iff (hjti : DistinctJti lib reqs) :
    c.NeverAcceptedAgain ↔ c.ChecksInTime lib env := by
  constructor
  · intro hnever j q token hq hreq hlog n e jti he hj ho x y hlatest
    by_contra hlate
    obtain ⟨token', hreq', hid⟩ := validateToken_of_isRevoked hlib hc he ho
    have hreqe : e.req = q.req := by
      have h₁ := hc.req_of_event he
      rw [hj, hc.req_of_proc hq] at h₁
      exact (Option.some.inj h₁).symm
    obtain rfl : token = token' := by simpa [hreqe, hreq] using hreq'
    have hmem : ∃ r ∈ reqs, r.token = token :=
      ⟨_, List.mem_of_getElem? (hc.req_of_event he), by rw [hreq']; rfl⟩
    have hrec := (record_eq_some_iff_latestLogout hlib hc hjti hid hmem).2 ⟨x, y, hlatest, rfl⟩
    obtain ⟨i, req, o, r, s, mark⟩ := e
    obtain rfl : o = .isRevoked jti := ho
    obtain rfl : i = j := hj
    -- the entry has expired, so the lookup finds nothing
    have hr : r = false := by
      rw [reply_isRevoked hc he, live, hrec, decide_eq_false_iff_not]
      exact hlate
    obtain ⟨reply, hreply⟩ := accepted_of_not_revoked hc (hr ▸ he) hq
    exact hnever i q token hq hreq hlog reply hreply
  · intro hintime j q token hq hreq hlog reply hdone
    have hfollows := hc.follows hq
    rw [hreq, hdone] at hfollows
    obtain ⟨tv, principal, hv, hown, -⟩ := returns_validateToken_iff.1 hfollows
    have hlookup : (⟨.isRevoked principal.jti, false⟩ :
        Interaction.Answered (AuthOp Jwk) AuthOp.Ret) ∈ own j c.hist := by simp [hown]
    obtain ⟨n, e, he, hj, hx⟩ := Interaction.mem_own_iff.1 hlookup
    obtain ⟨i, req, o, r, s, mark⟩ := e
    obtain rfl : i = j := hj
    cases hx
    have hreqe : req = .validateToken token := by
      have h₁ := hc.req_of_event he
      rw [hc.req_of_proc hq, hreq] at h₁
      exact (Option.some.inj h₁).symm
    have hid := (token_of_validate hlib hv).1
    obtain ⟨x, y, hlatest⟩ := exists_latestLogout hlib hc hjti hlog he rfl hreqe hid
    have hmem : ∃ r ∈ reqs, r.token = token :=
      ⟨_, List.mem_of_getElem? (hc.req_of_event he), by rw [hreqe]; rfl⟩
    have hrec := (record_eq_some_iff_latestLogout hlib hc hjti hid hmem).2 ⟨x, y, hlatest, rfl⟩
    -- the entry of the last logout lives, so the lookup finds it
    have hlive := reply_isRevoked hc he
    rw [live, hrec, eq_comm, decide_eq_false_iff_not] at hlive
    exact hlive (hintime i q token hq hreq hlog n _ _ he rfl rfl x y hlatest)

end AuthConfig

/-! ### A logout within the leeway -/

namespace Sample

/-- Time passes by a second with every call. -/
def ticking (start : ℕ) : AuthEnv String where
  clock n := (start + n) * second
  clock_mono _ _ h := Nat.mul_le_mul_right _ (Nat.add_le_add_left h _)
  idp _ := some ["k1"]

/-- A logout and, after it has returned, a validation of the same token. -/
def calls : List AuthRequest := [.logout "t", .validateToken "t"]

/-- The logout starts at second `start`, and all calls are performed. -/
def served (start : ℕ) : AuthConfig String :=
  (Snapshot.init (.new 0) (AuthRequest.prog (lib token) ⟨"idp", "settings"⟩) calls).schedule
    (AuthOp.exec (ticking start)) (List.replicate 11 0 ++ List.replicate 4 1)

theorem distinctJti_calls : DistinctJti (lib token) calls := by
  intro r hr r' hr' _ _ _
  have h : ∀ r ∈ calls, r.token = "t" := by decide
  rw [h r hr, h r' hr']

theorem reachable_served (start : ℕ) : Reachable (AuthOp.exec (ticking start)) (fun _ _ => True)
    (Snapshot.init (.new 0) (AuthRequest.prog (lib token) ⟨"idp", "settings"⟩) calls)
    (served start) :=
  Reachable.refl.schedule _ _

end Sample

/-- A logout at second 20, with the token good for another 80 seconds. -/
theorem AuthConfig.neverAcceptedAgain_iff_served : (Sample.served 20).NeverAcceptedAgain ↔
    (Sample.served 20).ChecksInTime (Sample.lib Sample.token) (Sample.ticking 20) :=
  AuthConfig.neverAcceptedAgain_iff (Sample.documented_lib _) (Sample.reachable_served 20)
    Sample.distinctJti_calls

/-- A token logged out half a minute after its expiry is accepted by the next call. -/
theorem AuthConfig.not_neverAcceptedAgain : ¬ ∀ (lib : JsonWebToken String String)
    (a : JwtAuthAdapter) (env : AuthEnv String) (t₀ : Instant) (reqs : List AuthRequest)
    (c : AuthConfig String), lib.Documented → DistinctJti lib reqs →
    Reachable (AuthOp.exec env) (fun _ _ => True)
      (Snapshot.init (.new t₀) (AuthRequest.prog lib a) reqs) c →
    c.NeverAcceptedAgain := by
  intro h
  refine h _ _ _ _ _ _ (Sample.documented_lib _) Sample.distinctJti_calls
    (Sample.reachable_served 120) 1 _ "t" rfl rfl ⟨0, _, rfl, rfl, rfl, ?_⟩ _ rfl
  decide

end SettingsService
