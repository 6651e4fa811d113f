import SettingsService.ServedKeys

/-!
# Sessions apart

Two runs of the calls of the service: one with logouts of many tokens, and one without the logouts
of all tokens but one.  What this one token can tell the two apart by is the revocation that is
filed under its id; and a token without an id claim is filed under the empty text, with all others
that have none.

Main definitions:

* `AuthConfig.Purged` — a run of the calls that are left when the logouts of other tokens are gone;
* `AuthConfig.Unchanged` — the validations of the token end alike in both runs;
* `AuthConfig.KeysAlike` — the calls with the token find the same signing key in both;
* `AuthConfig.OwnDeadlines` — a lookup of the token finds a revocation just when a logout of the
  token itself has left one.

Main results:

* `AuthConfig.unchanged_iff` — **deleting the logouts of other tokens is unobservable exactly when**
  no lookup meets the revocation of another token;
* `AuthConfig.ownDeadlines_of_jti` — a token with an id of its own meets none;
* `AuthConfig.keysAlike_of_serves` — the same key is found while the provider serves it;
* `AuthConfig.not_unchanged`, `AuthConfig.not_unchanged_of_jti` — two tokens of two tenants, neither
  with an id; and a key that a deleted logout has fetched.
-/

set_option relaxedAutoImplicit false
set_option autoImplicit false

namespace SettingsService

open Interaction (Prog Snapshot Reachable own)
open Interaction.Prog (Follows Only)
open Deadlines (record live)

/-- The id claim of a token. -/
def JsonWebToken.tokenJti {Jwk Key : Type} (lib : JsonWebToken Jwk Key) (token : String) :
    Option String := (lib.claims token).bind Claims.jti

/-- The id claim of a token, when the token has one, is unique to it. -/
def UniqueJti {Jwk Key : Type} (lib : JsonWebToken Jwk Key) (reqs : List AuthRequest) : Prop :=
  ∀ r ∈ reqs, ∀ r' ∈ reqs, ∀ jti, lib.tokenJti r.token = some jti →
    lib.tokenJti r'.token = some jti → r.token = r'.token

/-- Does a call read a clock and answer by it? -/
def AuthOp.readsClock {Jwk : Type} : AuthOp Jwk → Bool
  | timestamp => true
  | systemTime => true
  | instant => true
  | isRevoked _ => true
  | _ => false

/-! ### The two runs -/

namespace AuthConfig

variable {Jwk Key : Type}

/-- The call at position `n` of the history is the call `o` of the process at `i`, which serves a
request with the token. -/
def PerformedAt (c : AuthConfig Jwk) (token : String) (i : ℕ) (o : AuthOp Jwk) (n : ℕ) : Prop :=
  ∃ e, c.hist[n]? = some e ∧ e.who = i ∧ e.req.token = token ∧ e.op = o

/-- The call at position `n` of the history is one on the revocation store. -/
def AccessAt (c : AuthConfig Jwk) (token : String) (i n : ℕ) : Prop :=
  ∃ o : AuthOp Jwk, o.isStore = true ∧ c.PerformedAt token i o n

/-- Every request with the token has been answered. -/
def Returned (c : AuthConfig Jwk) (token : String) : Prop :=
  ∀ p ∈ c.procs, p.req.token = token → ∃ r, p.prog = .pure r

/-- The calls with the token take place in two runs alike, as far as the times go and the revocation
store.  One run may fill the key cache where the other finds it filled, so they need not make the
same use of it. -/
structure SameCalls (env env' : AuthEnv Jwk) (token : String) (c c' : AuthConfig Jwk) : Prop where
  /-- They have returned. -/
  returned : c.Returned token
  /-- They have returned in the other run, too. -/
  returned' : c'.Returned token
  /-- They read the same times. -/
  times : ∀ i (o : AuthOp Jwk) m n, o.readsClock = true → c.PerformedAt token i o m →
    c'.PerformedAt token i o n → env.clock m = env'.clock n
  /-- They come to the revocation store in the same order. -/
  order : ∀ i₁ i₂ m₁ m₂ n₁ n₂, c.AccessAt token i₁ m₁ → c.AccessAt token i₂ m₂ →
    c'.AccessAt token i₁ n₁ → c'.AccessAt token i₂ n₂ → (m₁ < m₂ ↔ n₁ < n₂)

/-- **What is left of a run when the logouts of all tokens but one are deleted.**  Nothing is asked
of the validations of other tokens. -/
structure Purged (env env' : AuthEnv Jwk) (token : String) (c c' : AuthConfig Jwk) : Prop
    extends SameCalls env env' token c c' where
  /-- No logout of another token takes place. -/
  gone : ∀ e ∈ c'.hist, ∀ token', e.req = .logout token' → token' = token
  /-- The identity provider is the same. -/
  idp : ∀ m n, env.clock m = env'.clock n → env.idp m = env'.idp n

/-- **The validations of the token end alike.** -/
def Unchanged (token : String) (c c' : AuthConfig Jwk) : Prop :=
  ∀ (i : ℕ) p p', c.procs[i]? = some p → c'.procs[i]? = some p' → p.req = .validateToken token →
    p.prog.result? = p'.prog.result?

/-- The calls with the token find the same signing key. -/
def KeysAlike (lib : JsonWebToken Jwk Key) (token : String) (c c' : AuthConfig Jwk) : Prop :=
  ∀ i key key', c.LookedUp lib token i key → c'.LookedUp lib token i key' → key = key'

/-- The id that an event revokes, and until when, if it is of a logout of the token. -/
def ownRevocation (token : String) (e : AuthEvent Jwk) : Option (String × Instant) :=
  if e.req = .logout token then revocation e else none

/-- At every lookup of the token, the deadline stored last under its id, by whichever token, is
ahead exactly when the one stored last by a logout of the token is. -/
def OwnDeadlines (env : AuthEnv Jwk) (token : String) (c : AuthConfig Jwk) : Prop :=
  ∀ (n : ℕ) (e : AuthEvent Jwk) (jti : String), c.hist[n]? = some e →
    e.req = .validateToken token → e.op = .isRevoked jti →
    live (record revocation (c.hist.take n)) jti (env.clock n) =
      live (record (ownRevocation token) (c.hist.take n)) jti (env.clock n)

end AuthConfig

/-! ### One call in two runs -/

section Trace

variable {Jwk Key : Type} {lib : JsonWebToken Jwk Key} {a : JwtAuthAdapter} {token : String}
  {tr tr' : List (Interaction.Answered (AuthOp Jwk) AuthOp.Ret)}

/-- Two validations that find the same key and read the same times end alike. -/
theorem JwtAuthAdapter.validate_eq_of_agree {x x' : Except AuthError JwtPrincipal}
    (h : Follows (a.validate lib token).run tr (.pure x))
    (h' : Follows (a.validate lib token).run tr' (.pure x'))
    (hkeys : ∀ kid tk tk' key key', lib.decodeHeader token = some (some kid) → tk <+: tr →
      tk' <+: tr' → Follows (Jwks.keyFor lib kid).run tk (.pure key) →
      Follows (Jwks.keyFor lib kid).run tk' (.pure key') → key = key')
    (hagree : ∀ (o : AuthOp Jwk) (r r' : o.Ret), o = .timestamp ∨ o = .systemTime →
      (⟨o, r⟩ : Interaction.Answered (AuthOp Jwk) AuthOp.Ret) ∈ tr →
      (⟨o, r'⟩ : Interaction.Answered (AuthOp Jwk) AuthOp.Ret) ∈ tr' → r = r') : x = x' := by
  by_cases hkid : ∃ kid, lib.decodeHeader token = some (some kid)
  · obtain ⟨kid, hkid⟩ := hkid
    obtain ⟨rest, hrest, hrun⟩ := validate_eq_bind lib a hkid
    rw [hrun, Interaction.Prog.returns_except_bind_iff] at h h'
    rcases h with ⟨e, rfl, hk⟩ | ⟨key, tk, t, rfl, hk, h⟩
    · rcases h' with ⟨e', rfl, hk'⟩ | ⟨key', tk', t', rfl, hk', h'⟩
      · cases hkeys kid tr tr' _ _ hkid (List.prefix_refl _) (List.prefix_refl _) hk hk'
        rfl
      · cases hkeys kid tr tk' _ _ hkid (List.prefix_refl _) (List.prefix_append _ _) hk hk'
    · rcases h' with ⟨e', rfl, hk'⟩ | ⟨key', tk', t', rfl, hk', h'⟩
      · cases hkeys kid tk tr' _ _ hkid (List.prefix_append _ _) (List.prefix_refl _) hk hk'
      · cases hkeys kid tk tk' _ _ hkid (List.prefix_append _ _) (List.prefix_append _ _) hk hk'
        exact (Interaction.Prog.Follows.eq_of_agree (hrest key) h h' fun o r r' ho hr hr' =>
          hagree o r r' ho (List.mem_append_right _ hr) (List.mem_append_right _ hr')).2
  · have hrun := @validate_eq_of_no_kid _ _ lib a token fun kid h => hkid ⟨kid, h⟩
    rw [hrun, Interaction.Prog.follows_pure_iff] at h h'
    cases h.2
    cases h'.2
    rfl

/-- How the service validates a token: it ends with the adapter, or with the lookup of the token. -/
theorem returns_service_validateToken {y : Except AuthError Authority}
    (h : Follows (AuthService.validateToken lib a token).run tr (.pure y)) :
    (∃ e, y = .error e ∧ Follows (a.validate lib token).run tr (.pure (.error e))) ∨
      ∃ tv principal revoked, Follows (a.validate lib token).run tv (.pure (.ok principal)) ∧
        tr = tv ++ [⟨.isRevoked principal.jti, revoked⟩] ∧
        y = if revoked then .error .revoked else .ok principal.authority := by
  rw [AuthService.validateToken, Interaction.Prog.returns_except_bind_iff] at h
  rcases h with h | ⟨principal, tv, t, rfl, hv, h⟩
  · exact .inl h
  · obtain ⟨revoked, _, t, rfl, hlookup, hy⟩ := returns_of_perform_bind h
    obtain rfl := follows_perform_iff.1 hlookup
    refine .inr ⟨tv, principal, revoked, hv, ?_⟩
    cases revoked with
    | true =>
        obtain ⟨rfl, hy⟩ := Interaction.Prog.follows_pure_iff.1 hy
        cases hy
        exact ⟨rfl, rfl⟩
    | false =>
        obtain ⟨rfl, hy⟩ := Interaction.Prog.follows_pure_iff.1 hy
        cases hy
        exact ⟨rfl, rfl⟩

/-- **How a call of `validate_token` ends.** -/
theorem returns_validateToken {r : AuthResult}
    (h : Follows ((AuthRequest.validateToken token).prog lib a) tr (.pure r)) :
    (∃ e, r = .error e ∧ Follows (a.validate lib token).run tr (.pure (.error e))) ∨
      ∃ tv principal revoked, Follows (a.validate lib token).run tv (.pure (.ok principal)) ∧
        tr = tv ++ [⟨.isRevoked principal.jti, revoked⟩] ∧
        r = if revoked then .error .revoked else .ok (.authority principal.authority) := by
  obtain ⟨y, rfl, hy⟩ := Interaction.Prog.returns_except_map_iff.1 h
  rcases returns_service_validateToken hy with ⟨e, rfl, hv⟩ | ⟨tv, principal, revoked, hv, rfl, rfl⟩
  · exact .inl ⟨e, rfl, hv⟩
  · refine .inr ⟨tv, principal, revoked, hv, rfl, ?_⟩
    cases revoked <;> rfl

/-- A call of `logout` that has not succeeded has ended with the adapter. -/
theorem returns_logout {r : AuthResult}
    (h : Follows ((AuthRequest.logout token).prog lib a) tr (.pure r)) :
    (∃ e, r = .error e ∧ Follows (a.validate lib token).run tr (.pure (.error e))) ∨
      r = .ok .loggedOut := by
  obtain ⟨y, rfl, hy⟩ := Interaction.Prog.returns_except_map_iff.1 h
  rcases Interaction.Prog.returns_except_bind_iff.1 hy with ⟨e, rfl, hv⟩ |
    ⟨principal, tv, t, rfl, -, hs⟩
  · exact .inl ⟨e, rfl, hv⟩
  · -- the store answers every call
    obtain ⟨now, _, _, -, -, hs⟩ := returns_of_perform_bind hs
    obtain ⟨_, rfl, -⟩ := Interaction.Prog.returns_lift_iff.1 hs
    exact .inr rfl

end Trace

/-! ### The calls with the token -/

namespace AuthConfig

variable {Jwk Key : Type} {lib : JsonWebToken Jwk Key} {a : JwtAuthAdapter} {env env' : AuthEnv Jwk}
  {t₀ t₀' : Instant} {reqs : List AuthRequest} {c c' : AuthConfig Jwk} {token : String}

theorem returned_of_isSome
    (h : ∀ p ∈ c.procs, p.req.token = token → p.prog.result?.isSome = true) :
    c.Returned token := by
  intro p hp htoken
  obtain ⟨r, hr⟩ := Option.isSome_iff_exists.1 (h p hp htoken)
  exact ⟨r, Prog.result?_eq_some_iff.1 hr⟩

theorem SameCalls.symm (h : SameCalls env env' token c c') : SameCalls env' env token c' c where
  returned := h.returned'
  returned' := h.returned
  times i o m n ho hm hn := (h.times i o n m ho hn hm).symm
  order i₁ i₂ m₁ m₂ n₁ n₂ hm₁ hm₂ hn₁ hn₂ := (h.order i₁ i₂ n₁ n₂ m₁ m₂ hn₁ hn₂ hm₁ hm₂).symm

theorem KeysAlike.symm (h : KeysAlike lib token c c') : KeysAlike lib token c' c :=
  fun i key key' hkey hkey' => (h i key' key hkey' hkey).symm

/-- The calls of a process up to a position are the first of its calls. -/
theorem prefix_own_take (c : AuthConfig Jwk) (i n : ℕ) :
    own i (c.hist.take n) <+: own i c.hist := by
  refine ⟨own i (c.hist.drop n), ?_⟩
  rw [← Interaction.own_append, List.take_append_drop]

/-- A call of a process with the token, at its position in the history. -/
theorem performedAt_of_mem_own (hc : Reachable (AuthOp.exec env) (fun _ _ => True)
    (Snapshot.init (.new t₀) (AuthRequest.prog lib a) reqs) c) {i : ℕ} {req : AuthRequest}
    (hreq : reqs[i]? = some req) (htoken : req.token = token) {o : AuthOp Jwk} {r : o.Ret}
    (hr : (⟨o, r⟩ : Interaction.Answered (AuthOp Jwk) AuthOp.Ret) ∈ own i c.hist) :
    ∃ s : AuthWorld Jwk, c.PerformedAt token i o s.steps ∧ r = (o.exec env s).1 := by
  obtain ⟨n, ⟨i', req', o', r', s, mark⟩, he, hi, hx⟩ := Interaction.mem_own_iff.1 hr
  obtain rfl : i' = i := hi
  have hreq' : req' = req := Option.some.inj ((hc.req_of_event he).symm.trans hreq)
  cases hx
  obtain ⟨rfl, hreply⟩ := reply_eq hc he
  exact ⟨s, ⟨_, he, rfl, by rw [hreq', htoken], rfl⟩, hreply⟩

/-- A revocation of the token is an access of one of its logouts to the store. -/
theorem accessAt_of_ownRevocation {n : ℕ} {e : AuthEvent Jwk} {kd : String × Instant}
    (he : c.hist[n]? = some e) (hr : ownRevocation token e = some kd) :
    c.AccessAt token e.who n := by
  rw [ownRevocation] at hr
  split_ifs at hr with hreq
  refine ⟨e.op, ?_, e, he, rfl, by rw [hreq]; rfl, rfl⟩
  rw [revocation] at hr
  cases ho : e.op with
  | insert jti expiry => rfl
  | _ => simp [ho, AuthOp.revokes] at hr

section Pair

variable (hc : Reachable (AuthOp.exec env) (fun _ _ => True)
    (Snapshot.init (.new t₀) (AuthRequest.prog lib a) reqs) c)
  (hc' : Reachable (AuthOp.exec env') (fun _ _ => True)
    (Snapshot.init (.new t₀') (AuthRequest.prog lib a) reqs) c')
  (h : SameCalls env env' token c c')
include hc hc' h

/-- The times that a call with the token reads. -/
theorem SameCalls.reading_eq {i : ℕ} {req : AuthRequest} (hreq : reqs[i]? = some req)
    (htoken : req.token = token) {o : AuthOp Jwk}
    (ho : o = .timestamp ∨ o = .systemTime ∨ o = .instant) {r r' : o.Ret}
    (hr : (⟨o, r⟩ : Interaction.Answered (AuthOp Jwk) AuthOp.Ret) ∈ own i c.hist)
    (hr' : (⟨o, r'⟩ : Interaction.Answered (AuthOp Jwk) AuthOp.Ret) ∈ own i c'.hist) : r = r' := by
  obtain ⟨s, hm, rfl⟩ := performedAt_of_mem_own hc hreq htoken hr
  obtain ⟨s', hn, rfl⟩ := performedAt_of_mem_own hc' hreq htoken hr'
  rcases ho with rfl | rfl | rfl
  · exact h.times i _ _ _ rfl hm hn
  · exact h.times i _ _ _ rfl hm hn
  · exact h.times i _ _ _ rfl hm hn

variable (hkeys : KeysAlike lib token c c')
include hkeys

/-- A call with the token validates it alike in both runs. -/
theorem SameCalls.validate_eq {i : ℕ} {req : AuthRequest} (hreq : reqs[i]? = some req)
    (htoken : req.token = token) {tv tv' : List (Interaction.Answered (AuthOp Jwk) AuthOp.Ret)}
    {x x' : Except AuthError JwtPrincipal} (htv : tv <+: own i c.hist)
    (htv' : tv' <+: own i c'.hist) (hv : Follows (a.validate lib token).run tv (.pure x))
    (hv' : Follows (a.validate lib token).run tv' (.pure x')) : x = x' := by
  refine JwtAuthAdapter.validate_eq_of_agree hv hv' (fun kid tk tk' key key' hkid htk htk' hk hk' =>
    hkeys i key key' ⟨?_, kid, tk, hkid, htk.trans htv, hk⟩
      ⟨?_, kid, tk', hkid, htk'.trans htv', hk'⟩) fun o r r' ho hr hr' => ?_
  · obtain ⟨p, hp, rfl⟩ := hc.exists_proc hreq
    exact ⟨p, hp, htoken⟩
  · obtain ⟨p, hp, rfl⟩ := hc'.exists_proc hreq
    exact ⟨p, hp, htoken⟩
  · exact h.reading_eq hc hc' hreq htoken (by tauto) (htv.subset hr) (htv'.subset hr')

/-- What a logout of the token revokes in one run, it revokes in the other. -/
theorem SameCalls.revoked {m : ℕ} {e : AuthEvent Jwk} {kd : String × Instant}
    (he : c.hist[m]? = some e) (hr : ownRevocation token e = some kd) :
    ∃ (m' : ℕ) (e' : AuthEvent Jwk), c'.hist[m']? = some e' ∧ e'.who = e.who ∧
      ownRevocation token e' = some kd := by
  obtain ⟨-, -, k, hk⟩ := hc.next he
  have hreq := hc.req_of_event he
  obtain ⟨i, req, o, r, s, mark⟩ := e
  rw [ownRevocation] at hr
  split_ifs at hr with htoken
  obtain rfl : req = .logout token := htoken
  cases o with
  | insert jti expiry =>
      obtain rfl : (jti, expiry) = kd := by simpa [revocation, AuthOp.revokes] using hr
      obtain ⟨token', tv, principal, now, htoken', hv, hown, rfl, rfl⟩ := reaches_insert hk
      cases htoken'
      have hpre : tv ++ [⟨.instant, now⟩] <+: own i c.hist := hown ▸ prefix_own_take c i m
      -- the call has returned in the other run, and validated its token there, too
      obtain ⟨p', hp', hreq'⟩ := hc'.exists_proc hreq
      obtain ⟨r', hdone⟩ := h.returned' p' (List.mem_of_getElem? hp') (by rw [hreq']; rfl)
      have hfollows := hc'.follows hp'
      rw [hreq', hdone] at hfollows
      rcases returns_logout hfollows with ⟨err, -, hv'⟩ | rfl
      · cases h.validate_eq hc hc' hkeys hreq rfl ((List.prefix_append _ _).trans hpre)
          (List.prefix_refl _) hv hv'
      · obtain ⟨-, tv', principal', now', hv', hown'⟩ := returns_logout_iff.1 hfollows
        have hpre' : tv' <+: own i c'.hist := ⟨_, hown'.symm⟩
        cases h.validate_eq hc hc' hkeys hreq rfl ((List.prefix_append _ _).trans hpre) hpre' hv hv'
        obtain rfl : now = now' := h.reading_eq hc hc' hreq rfl (.inr (.inr rfl))
          (hpre.subset (by simp)) (by simp [hown'])
        have hins : (⟨.insert principal.jti (deadline principal now), ()⟩ :
            Interaction.Answered (AuthOp Jwk) AuthOp.Ret) ∈ own i c'.hist := by simp [hown']
        obtain ⟨m', ⟨i', req', o', r', s', mark'⟩, he', hi', hx⟩ := Interaction.mem_own_iff.1 hins
        obtain rfl : i' = i := hi'
        obtain rfl : req' = .logout token :=
          Option.some.inj ((hc'.req_of_event he').symm.trans hreq)
        cases hx
        exact ⟨m', _, he', rfl, by rw [ownRevocation, if_pos rfl]; rfl⟩
  | _ => simp [revocation, AuthOp.revokes] at hr

/-- Up to two corresponding accesses, the logouts of the token have filed the same. -/
theorem SameCalls.record_le {i m n : ℕ} (hm : c.AccessAt token i m) (hn : c'.AccessAt token i n)
    {jti : String} {d : Instant}
    (hd : record (ownRevocation token) (c.hist.take m) jti = some d) :
    record (ownRevocation token) (c'.hist.take n) jti = some d := by
  obtain ⟨l, ⟨e, he, hr⟩, hlast⟩ := (Deadlines.record_eq_some_iff _).1 hd
  obtain ⟨hl, he⟩ := getElem?_take_eq_some_iff.1 he
  obtain ⟨l', e', he', hwho, hr'⟩ := h.revoked hc hc' hkeys he hr
  have haccess := accessAt_of_ownRevocation he hr
  have haccess' := accessAt_of_ownRevocation he' hr'
  rw [hwho] at haccess'
  have hl' : l' < n := (h.order _ _ _ _ _ _ haccess hm haccess' hn).1 hl
  refine (Deadlines.record_eq_some_iff _).2
    ⟨l', ⟨e', getElem?_take_eq_some_iff.2 ⟨hl', he'⟩, hr'⟩, fun k' f' d' hk' hf' hgiven' => ?_⟩
  -- a later revocation of the other run would be a later one of this run
  obtain ⟨hkn, hf'⟩ := getElem?_take_eq_some_iff.1 hf'
  obtain ⟨k, f, hf, hfwho, hgiven⟩ := h.symm.revoked hc' hc hkeys.symm hf' hgiven'
  have hlater := accessAt_of_ownRevocation hf hgiven
  have hlater' := accessAt_of_ownRevocation hf' hgiven'
  rw [hfwho] at hlater
  refine hlast k f d' ((h.order _ _ _ _ _ _ haccess hlater haccess' hlater').2 hk') ?_ hgiven
  exact getElem?_take_eq_some_iff.2 ⟨(h.order _ _ _ _ _ _ hlater hm hlater' hn).2 hkn, hf⟩

theorem SameCalls.record_eq {i m n : ℕ} (hm : c.AccessAt token i m) (hn : c'.AccessAt token i n)
    (jti : String) : record (ownRevocation token) (c.hist.take m) jti =
      record (ownRevocation token) (c'.hist.take n) jti :=
  Option.ext fun _ => ⟨h.record_le hc hc' hkeys hm hn,
    h.symm.record_le hc' hc hkeys.symm hn hm⟩

end Pair

/-- What is revoked for an id is revoked by the token, when no other token is logged out under the
id. -/
theorem record_eq_own (hlib : lib.Documented) (hc : Reachable (AuthOp.exec env)
    (fun _ _ => True) (Snapshot.init (.new t₀) (AuthRequest.prog lib a) reqs) c) (jti : String)
    (hown : ∀ e ∈ c.hist, ∀ token', e.req = .logout token' → lib.tokenId token' = some jti →
      token' = token) (n : ℕ) :
    record revocation (c.hist.take n) jti = record (ownRevocation token) (c.hist.take n) jti := by
  refine Deadlines.record_congr _ fun e he d => ?_
  have hmem := List.mem_of_mem_take he
  rw [ownRevocation]
  split_ifs with hreq
  · rfl
  · refine iff_of_false (fun hr => ?_) (by simp)
    obtain ⟨m, hm⟩ := List.getElem?_of_mem hmem
    obtain ⟨token', -, -, -, hreq', hid, -⟩ := logout_of_revocation hlib hc hm hr
    exact hreq (hown e hmem token' hreq' hid ▸ hreq')

/-- How a validation that has returned has ended: with the adapter, or with a lookup, which the
record of the revocations has answered. -/
theorem ended_validateToken (hc : Reachable (AuthOp.exec env) (fun _ _ => True)
    (Snapshot.init (.new t₀) (AuthRequest.prog lib a) reqs) c) {i : ℕ}
    {p : Interaction.Proc (AuthOp Jwk) AuthOp.Ret AuthRequest AuthResult}
    (hp : c.procs[i]? = some p) (hreq : p.req = .validateToken token) {r : AuthResult}
    (hr : p.prog = .pure r) :
    (∃ err, r = .error err ∧
      Follows (a.validate lib token).run (own i c.hist) (.pure (.error err))) ∨
      ∃ tv principal n, tv <+: own i c.hist ∧
        Follows (a.validate lib token).run tv (.pure (.ok principal)) ∧
        c.PerformedAt token i (.isRevoked principal.jti) n ∧
        r = if live (record revocation (c.hist.take n)) principal.jti (env.clock n)
          then .error .revoked else .ok (.authority principal.authority) := by
  have hfollows := hc.follows hp
  rw [hreq, hr] at hfollows
  rcases returns_validateToken hfollows with herr | ⟨tv, principal, revoked, hv, hown, rfl⟩
  · exact .inl herr
  · have hmem : (⟨.isRevoked principal.jti, revoked⟩ :
        Interaction.Answered (AuthOp Jwk) AuthOp.Ret) ∈ own i c.hist := by simp [hown]
    obtain ⟨n, ⟨i', req, o, b, s, mark⟩, he, hi, hx⟩ := Interaction.mem_own_iff.1 hmem
    obtain rfl : i' = i := hi
    have hreq' : req = .validateToken token := by
      have := hc.req_of_event he
      rw [hc.req_of_proc hp, hreq] at this
      exact (Option.some.inj this).symm
    cases hx
    refine .inr ⟨tv, principal, n, ⟨_, hown.symm⟩, hv, ⟨_, he, rfl, by rw [hreq']; rfl, rfl⟩, ?_⟩
    rw [← reply_isRevoked hc he]

section Validations

variable (hlib : lib.Documented) (hc : Reachable (AuthOp.exec env) (fun _ _ => True)
    (Snapshot.init (.new t₀) (AuthRequest.prog lib a) reqs) c)
  (hc' : Reachable (AuthOp.exec env') (fun _ _ => True)
    (Snapshot.init (.new t₀') (AuthRequest.prog lib a) reqs) c')
  (h : Purged env env' token c c') (hkeys : KeysAlike lib token c c') {i : ℕ}
  {p p' : Interaction.Proc (AuthOp Jwk) AuthOp.Ret AuthRequest AuthResult}
include hlib hc hc' h hkeys

/-- **A validation of the token in both runs**: it is refused by the adapter in both, or it comes to
its lookup in both, and then only the logouts of the token can answer it in the purged run. -/
theorem Purged.ended_validateToken (hp : c.procs[i]? = some p) (hp' : c'.procs[i]? = some p')
    (hreq : p.req = .validateToken token) :
    (p.prog = p'.prog ∧ ∀ n jti, ¬ c.PerformedAt token i (.isRevoked jti) n) ∨
      ∃ (principal : JwtPrincipal) (n : ℕ), c.PerformedAt token i (.isRevoked principal.jti) n ∧
        (∀ m jti, c.PerformedAt token i (.isRevoked jti) m → m = n) ∧
        p.prog = .pure (if live (record revocation (c.hist.take n)) principal.jti (env.clock n)
          then .error .revoked else .ok (.authority principal.authority)) ∧
        p'.prog = .pure (if live (record (ownRevocation token) (c.hist.take n)) principal.jti
          (env.clock n) then .error .revoked else .ok (.authority principal.authority)) := by
  have hreqs : reqs[i]? = some (.validateToken token) := hreq ▸ hc.req_of_proc hp
  have hreq' : p'.req = .validateToken token :=
    Option.some.inj ((hc'.req_of_proc hp').symm.trans hreqs)
  obtain ⟨r, hr⟩ := h.returned p (List.mem_of_getElem? hp) (by rw [hreq]; rfl)
  obtain ⟨r', hr'⟩ := h.returned' p' (List.mem_of_getElem? hp') (by rw [hreq']; rfl)
  rw [hr, hr']
  rcases AuthConfig.ended_validateToken hc' hp' hreq' hr' with ⟨err', rfl, hv'⟩ |
    ⟨tv', principal, n', htv', hv', hn', rfl⟩
  · -- the adapter refuses the token in the other run, too, so there is no lookup
    rcases AuthConfig.ended_validateToken hc hp hreq hr with ⟨err, rfl, hv⟩ |
      ⟨tv, principal, n, htv, hv, hn, rfl⟩
    · cases h.validate_eq hc hc' hkeys hreqs rfl (List.prefix_refl _) (List.prefix_refl _) hv hv'
      refine .inl ⟨rfl, ?_⟩
      rintro m jti ⟨⟨i', req, o, b, s, mark⟩, he, hi, -, ho⟩
      obtain rfl : i' = i := hi
      obtain rfl : o = .isRevoked jti := ho
      obtain ⟨-, -, k, hk⟩ := hc.next he
      obtain ⟨token', principal, htoken', hv₁, -⟩ := reaches_isRevoked hk
      obtain rfl : token = token' := by
        have := (hc.req_of_event he).symm.trans hreqs
        rw [htoken'] at this
        cases this
        rfl
      cases h.validate_eq hc hc' hkeys hreqs rfl (prefix_own_take c i' m) (List.prefix_refl _)
        hv₁ hv'
    · cases h.validate_eq hc hc' hkeys hreqs rfl htv (List.prefix_refl _) hv hv'
  · rcases AuthConfig.ended_validateToken hc hp hreq hr with ⟨err, rfl, hv⟩ |
      ⟨tv, principal₁, n, htv, hv, hn, rfl⟩
    · cases h.validate_eq hc hc' hkeys hreqs rfl (List.prefix_refl _) htv' hv hv'
    · cases h.validate_eq hc hc' hkeys hreqs rfl htv htv' hv hv'
      have hclock : env.clock n = env'.clock n' := h.times i _ n n' rfl hn hn'
      have hrecord := h.record_eq hc hc' hkeys ⟨_, rfl, hn⟩ ⟨_, rfl, hn'⟩ principal.jti
      have hown := record_eq_own hlib hc' principal.jti
        (fun e he token' hreq _ => h.gone e he token' hreq) n'
      refine .inr ⟨principal, n, hn, fun m jti hm => ?_, rfl, ?_⟩
      · -- a call comes to the store once
        have hmn := h.order i i m n n' n' ⟨_, rfl, hm⟩ ⟨_, rfl, hn⟩ ⟨_, rfl, hn'⟩ ⟨_, rfl, hn'⟩
        have hnm := h.order i i n m n' n' ⟨_, rfl, hn⟩ ⟨_, rfl, hm⟩ ⟨_, rfl, hn'⟩ ⟨_, rfl, hn'⟩
        omega
      · have hlive : live (record (ownRevocation token) (c.hist.take n)) principal.jti
              (env.clock n) =
            live (record revocation (c'.hist.take n')) principal.jti (env.clock n) := by
          rw [live, live, hown, hrecord]
        rw [← hclock, hlive]

/-- **Deleting the logouts of other tokens is unobservable exactly when** no lookup of the token
meets the revocation of another one; the calls with the token are to find the same signing key, for
which they share a cache with all others. -/
theorem unchanged_iff : Unchanged token c c' ↔ OwnDeadlines env token c := by
  constructor
  · intro hunchanged n e jti he hreq hop
    obtain ⟨i, hi⟩ : ∃ i, e.who = i := ⟨_, rfl⟩
    have hreqs := hi ▸ hc.req_of_event he
    obtain ⟨p, hp, hpreq⟩ := hc.exists_proc hreqs
    obtain ⟨p', hp', -⟩ := hc'.exists_proc hreqs
    have hperf : c.PerformedAt token i (.isRevoked jti) n := ⟨e, he, hi, by rw [hreq]; rfl, hop⟩
    rcases h.ended_validateToken hlib hc hc' hkeys hp hp' (hpreq.trans hreq) with ⟨-, hnone⟩ |
      ⟨principal, n₁, ⟨e₁, he₁, -, -, hop₁⟩, honce, hprog, hprog'⟩
    · exact absurd hperf (hnone n jti)
    · obtain rfl := honce n jti hperf
      obtain rfl : e = e₁ := Option.some.inj (he.symm.trans he₁)
      obtain rfl : jti = principal.jti := by
        rw [hop] at hop₁
        exact AuthOp.isRevoked.inj hop₁
      have hsame := hunchanged i p p' hp hp' (hpreq.trans hreq)
      rw [hprog, hprog', Prog.result?, Prog.result?, Option.some.injEq] at hsame
      by_cases hall : live (record revocation (c.hist.take n)) principal.jti (env.clock n) = true
      · rw [hall, eq_comm]
        by_contra hown
        rw [if_pos hall, if_neg hown] at hsame
        cases hsame
      · rw [Bool.eq_false_of_not_eq_true hall, eq_comm, ← Bool.not_eq_true]
        intro hown
        rw [if_neg hall, if_pos hown] at hsame
        cases hsame
  · intro hown i p p' hp hp' hreq
    rcases h.ended_validateToken hlib hc hc' hkeys hp hp' hreq with ⟨hsame, -⟩ |
      ⟨principal, n, ⟨e, he, hi, htoken, hop⟩, -, hprog, hprog'⟩
    · rw [hsame]
    · have hreqe : e.req = .validateToken token := by
        have := hc.req_of_event he
        rw [hi, hc.req_of_proc hp, hreq] at this
        exact (Option.some.inj this).symm
      rw [hprog, hprog', hown n e principal.jti he hreqe hop]

end Validations

section Ids

variable (hlib : lib.Documented) (hc : Reachable (AuthOp.exec env) (fun _ _ => True)
    (Snapshot.init (.new t₀) (AuthRequest.prog lib a) reqs) c)
include hlib hc

/-- A token whose id no other token is logged out under. -/
theorem ownDeadlines_of_tokenId_ne (hid : ∀ token', .logout token' ∈ reqs → token' ≠ token →
    lib.tokenId token' ≠ lib.tokenId token) : OwnDeadlines env token c := by
  intro n e jti he hreq hop
  obtain ⟨token₁, hreq₁, hjti⟩ := validateToken_of_isRevoked hlib hc he hop
  obtain rfl : token = token₁ := by
    rw [hreq] at hreq₁
    exact AuthRequest.validateToken.inj hreq₁
  rw [live, live, record_eq_own hlib hc]
  intro e' he' token' hreq' hid'
  by_contra hne
  obtain ⟨m, hm⟩ := List.getElem?_of_mem he'
  have hmem := List.mem_of_getElem? (hc.req_of_event hm)
  exact hid token' (hreq' ▸ hmem) hne (hid'.trans hjti.symm)

/-- **A token with an id of its own** meets no revocation of another one. -/
theorem ownDeadlines_of_jti (hunique : UniqueJti lib reqs) {jti : String}
    (hjti : lib.tokenJti token = some jti) (hne : jti ≠ "") : OwnDeadlines env token c := by
  by_cases hmem : .validateToken token ∈ reqs
  · refine ownDeadlines_of_tokenId_ne hlib hc fun token' hlogout hother hid => hother ?_
    refine hunique _ hlogout _ hmem jti ?_ hjti
    obtain ⟨claims, hclaims, hsome⟩ := Option.bind_eq_some_iff.1 hjti
    rw [JsonWebToken.tokenId, JsonWebToken.tokenId, hclaims, Option.map_some, hsome,
      Option.getD_some, Option.map_eq_some_iff] at hid
    obtain ⟨claims', hclaims', hid⟩ := hid
    rw [AuthRequest.token, JsonWebToken.tokenJti, hclaims', Option.bind_some]
    cases hsome' : claims'.jti with
    | none =>
        rw [hsome', Option.getD_none] at hid
        exact absurd hid.symm hne
    | some jti' =>
        rw [hsome', Option.getD_some] at hid
        rw [hid]
  · intro n e _ he hreq
    exact absurd (hreq ▸ List.mem_of_getElem? (hc.req_of_event he)) hmem

end Ids

/-- The calls with a token whose key is served in both runs find it in both. -/
theorem keysAlike_of_serves (hc : Reachable (AuthOp.exec env) (fun _ _ => True)
    (Snapshot.init (.new t₀) (AuthRequest.prog lib a) reqs) c)
    (hc' : Reachable (AuthOp.exec env') (fun _ _ => True)
      (Snapshot.init (.new t₀') (AuthRequest.prog lib a) reqs) c') {kid : String} {key : Key}
    (hkid : lib.decodeHeader token = some (some kid)) (hserves : c.Serves lib env token kid key)
    (hserves' : c'.Serves lib env' token kid key) : KeysAlike lib token c c' := by
  intro i found found' h h'
  rw [found_of_serves hc hserves hkid h, found_of_serves hc' hserves' hkid h']

end AuthConfig

/-! ### Two tokens without an id -/

namespace Sample

/-- A token of Alice with an id claim, and tokens of Alice and of Bob, of another tenant, without
one. -/
def tokens : String → Option Json
  | "x" => some (.object [("iss", .string "idp"), ("aud", .string "settings"),
      ("sub", .string "bob"), ("tenant", .string "globex"), ("exp", .number (.posInt 100))])
  | "y" => some (.object [("iss", .string "idp"), ("aud", .string "settings"),
      ("sub", .string "alice"), ("tenant", .string "acme"), ("exp", .number (.posInt 100))])
  | t => token t

/-- Bob logs out, and Alice comes with a token. -/
def sessions (t : String) : List AuthRequest := [.logout "x", .validateToken t]

/-- Bob's call and then Alice's. -/
def bothServed (t : String) : AuthConfig String :=
  (Snapshot.init (.new 0) (AuthRequest.prog (lib tokens) ⟨"idp", "settings"⟩) (sessions t)).schedule
    (AuthOp.exec (ticking 20)) (List.replicate 11 0 ++ List.replicate 4 1)

/-- Alice's call alone; it has to fetch the keys that Bob's had fetched. -/
def aliceServed (t : String) : AuthConfig String :=
  (Snapshot.init (.new 0) (AuthRequest.prog (lib tokens) ⟨"idp", "settings"⟩) (sessions t)).schedule
    (AuthOp.exec (ticking 25)) (List.replicate 10 1)

/-- The kind of a call on a clock or on the revocation store. -/
def kind : AuthOp String → ℕ
  | .timestamp => 1
  | .systemTime => 2
  | .instant => 3
  | .insert _ _ => 4
  | .isRevoked _ => 5
  | _ => 0

/-- The kinds of the calls of a run, and who made them. -/
def kinds (c : AuthConfig String) : List (ℕ × ℕ) := c.hist.map fun e => (e.who, kind e.op)

theorem kinds_of_performedAt {c : AuthConfig String} {t : String} {i n : ℕ} {o : AuthOp String}
    (h : c.PerformedAt t i o n) : (kinds c)[n]? = some (i, kind o) := by
  obtain ⟨e, he, rfl, -, rfl⟩ := h
  rw [kinds, List.getElem?_map, he, Option.map_some]

/-- The calls of Alice among both. -/
theorem performedAt_bothServed {t : String} (ht : t = "t" ∨ t = "y") {i n : ℕ} {o : AuthOp String}
    (ho : kind o ≠ 0) (h : (bothServed t).PerformedAt t i o n) :
    i = 1 ∧ (kind o = 1 ∧ n = 12 ∨ kind o = 2 ∧ n = 13 ∨ kind o = 5 ∧ n = 14) := by
  have hkinds : kinds (bothServed t) = List.replicate 7 (0, 0) ++
      [(0, 1), (0, 2), (0, 3), (0, 4), (1, 0), (1, 1), (1, 2), (1, 5)] := by
    rcases ht with rfl | rfl <;> decide
  have hbob : ∀ e ∈ (bothServed t).hist, e.who = 0 → e.req.token ≠ t := by
    rcases ht with rfl | rfl <;> decide
  have hi : i ≠ 0 := by
    obtain ⟨e, he, rfl, htoken, -⟩ := h
    exact fun hwho => hbob e (List.mem_of_getElem? he) hwho htoken
  have hat : ∀ x ∈ (List.replicate 7 (0, 0) ++
      [(0, 1), (0, 2), (0, 3), (0, 4), (1, 0), (1, 1), (1, 2), (1, 5)]).zipIdx,
      x.1.1 ≠ 0 → x.1.2 ≠ 0 → x ∈ [((1, 1), 12), ((1, 2), 13), ((1, 5), 14)] := by decide
  have hkind := kinds_of_performedAt h
  rw [hkinds] at hkind
  have hmem := hat (_, n) (List.mk_mem_zipIdx_iff_getElem?.2 hkind) hi ho
  simp only [List.mem_cons, List.not_mem_nil, Prod.mk.injEq, or_false] at hmem
  omega

/-- The calls of Alice alone. -/
theorem performedAt_aliceServed {t : String} (ht : t = "t" ∨ t = "y") {i n : ℕ} {o : AuthOp String}
    (ho : kind o ≠ 0) (h : (aliceServed t).PerformedAt t i o n) :
    i = 1 ∧ (kind o = 1 ∧ n = 7 ∨ kind o = 2 ∧ n = 8 ∨ kind o = 5 ∧ n = 9) := by
  have hkinds : kinds (aliceServed t) =
      List.replicate 7 (1, 0) ++ [(1, 1), (1, 2), (1, 5)] := by
    rcases ht with rfl | rfl <;> decide
  have hat : ∀ x ∈ (List.replicate 7 (1, 0) ++ [(1, 1), (1, 2), (1, 5)]).zipIdx,
      x.1.2 ≠ 0 → x ∈ [((1, 1), 7), ((1, 2), 8), ((1, 5), 9)] := by decide
  have hkind := kinds_of_performedAt h
  rw [hkinds] at hkind
  have hmem := hat (_, n) (List.mk_mem_zipIdx_iff_getElem?.2 hkind) ho
  simp only [List.mem_cons, List.not_mem_nil, Prod.mk.injEq, or_false] at hmem
  omega

theorem purged_alice {t : String} (ht : t = "t" ∨ t = "y") :
    AuthConfig.Purged (ticking 20) (ticking 25) t (bothServed t) (aliceServed t) where
  returned := by
    refine AuthConfig.returned_of_isSome ?_
    rcases ht with rfl | rfl <;> decide
  returned' := by
    refine AuthConfig.returned_of_isSome ?_
    rcases ht with rfl | rfl <;> decide
  times i o m n ho hm hn := by
    have hkind : kind o ≠ 0 := by
      cases o <;> simp_all [AuthOp.readsClock, kind]
    have h := performedAt_bothServed ht hkind hm
    have h' := performedAt_aliceServed ht hkind hn
    have hmn : 20 + m = 25 + n := by omega
    exact congrArg (· * second) hmn
  order i₁ i₂ m₁ m₂ n₁ n₂ := by
    rintro ⟨o₁, ho₁, hm₁⟩ ⟨o₂, ho₂, hm₂⟩ ⟨o₁', ho₁', hn₁⟩ ⟨o₂', ho₂', hn₂⟩
    have hkind : ∀ o : AuthOp String, o.isStore = true → kind o = 4 ∨ kind o = 5 := by
      intro o ho
      cases o <;> simp_all [AuthOp.isStore, kind]
    have hne : ∀ o : AuthOp String, o.isStore = true → kind o ≠ 0 := by
      intro o ho
      have := hkind o ho
      omega
    have h₁ := performedAt_bothServed ht (hne o₁ ho₁) hm₁
    have h₂ := performedAt_bothServed ht (hne o₂ ho₂) hm₂
    have h₁' := performedAt_aliceServed ht (hne o₁' ho₁') hn₁
    have h₂' := performedAt_aliceServed ht (hne o₂' ho₂') hn₂
    have := hkind o₁ ho₁
    have := hkind o₂ ho₂
    have := hkind o₁' ho₁'
    have := hkind o₂' ho₂'
    omega
  gone := by
    have h : ∀ e ∈ (aliceServed t).hist, e.req = .validateToken t := by
      rcases ht with rfl | rfl <;> decide
    intro e he token' hreq
    cases (h e he).symm.trans hreq
  idp _ _ _ := rfl

/-- The provider serves its one key. -/
theorem serves_ticking (start : ℕ) (t : String) (c : AuthConfig String) :
    c.Serves (lib tokens) (ticking start) t "k1" "k1" where
  resolved n e set _ _ hset := by
    have hkey : Jwks.answer (lib tokens) (ticking start) n =
        some (Jwks.byKid (lib tokens) ["k1"]) := rfl
    rw [hkey] at hset
    cases hset
    rfl
  answered _ _ _ _ _ := rfl

theorem reachable_bothServed (t : String) :
    Reachable (AuthOp.exec (ticking 20)) (fun _ _ => True)
      (Snapshot.init (.new 0) (AuthRequest.prog (lib tokens) ⟨"idp", "settings"⟩) (sessions t))
      (bothServed t) := Reachable.refl.schedule _ _

theorem reachable_aliceServed (t : String) :
    Reachable (AuthOp.exec (ticking 25)) (fun _ _ => True)
      (Snapshot.init (.new 0) (AuthRequest.prog (lib tokens) ⟨"idp", "settings"⟩) (sessions t))
      (aliceServed t) := Reachable.refl.schedule _ _

end Sample

/-- Bob logs out, and Alice comes with a token that has an id. -/
theorem AuthConfig.unchanged_iff_alice :
    AuthConfig.Unchanged "t" (Sample.bothServed "t") (Sample.aliceServed "t") ↔
      AuthConfig.OwnDeadlines (Sample.ticking 20) "t" (Sample.bothServed "t") :=
  AuthConfig.unchanged_iff (Sample.documented_lib _) (Sample.reachable_bothServed "t")
    (Sample.reachable_aliceServed "t") (Sample.purged_alice (.inl rfl))
    (AuthConfig.keysAlike_of_serves (Sample.reachable_bothServed "t")
      (Sample.reachable_aliceServed "t") rfl (Sample.serves_ticking 20 "t" _)
      (Sample.serves_ticking 25 "t" _))

/-- Bob, of another tenant, logs out, and Alice's token is refused: neither token has an id. -/
theorem AuthConfig.not_unchanged : ¬ ∀ (lib : JsonWebToken String String) (a : JwtAuthAdapter)
    (env env' : AuthEnv String) (t₀ t₀' : Instant) (reqs : List AuthRequest)
    (c c' : AuthConfig String) (token : String), lib.Documented → UniqueJti lib reqs →
    Reachable (AuthOp.exec env) (fun _ _ => True)
      (Snapshot.init (.new t₀) (AuthRequest.prog lib a) reqs) c →
    Reachable (AuthOp.exec env') (fun _ _ => True)
      (Snapshot.init (.new t₀') (AuthRequest.prog lib a) reqs) c' →
    AuthConfig.Purged env env' token c c' → AuthConfig.Unchanged token c c' := by
  intro h
  have hunique : UniqueJti (Sample.lib Sample.tokens) (Sample.sessions "y") := by
    have hnone : ∀ r ∈ Sample.sessions "y", (Sample.lib Sample.tokens).tokenJti r.token = none := by
      decide
    intro r hr r' _ jti hjti
    rw [hnone r hr] at hjti
    cases hjti
  have hsame := h _ _ _ _ _ _ _ _ _ "y" (Sample.documented_lib _) hunique
    (Sample.reachable_bothServed "y") (Sample.reachable_aliceServed "y")
    (Sample.purged_alice (.inr rfl)) 1 _ _ rfl rfl rfl
  revert hsame
  decide

/-! ### A key that one of the deleted calls has fetched -/

namespace Sample

/-- A provider that answers before second 25 only; time passes by a second with every call. -/
def failing (start : ℕ) : AuthEnv String where
  clock := (ticking start).clock
  clock_mono := (ticking start).clock_mono
  idp n := if start + n < 25 then some ["k1"] else none

/-- Bob's call and then Alice's, while the provider answers Bob only. -/
def bothCached : AuthConfig String :=
  .schedule (AuthOp.exec (failing 20))
    (.init (.new 0) (AuthRequest.prog (lib tokens) ⟨"idp", "settings"⟩) (sessions "t"))
    (List.replicate 11 0 ++ List.replicate 4 1)

/-- Alice's call alone; the provider does not answer it. -/
def aliceUnserved : AuthConfig String :=
  .schedule (AuthOp.exec (failing 25))
    (.init (.new 0) (AuthRequest.prog (lib tokens) ⟨"idp", "settings"⟩) (sessions "t"))
    (List.replicate 3 1)

/-- Alice's call alone reads no clock and does not come to the store. -/
theorem not_performedAt_aliceUnserved {i n : ℕ} {o : AuthOp String} (ho : kind o ≠ 0) :
    ¬ aliceUnserved.PerformedAt "t" i o n := by
  intro h
  have hkinds : kinds aliceUnserved = List.replicate 3 (1, 0) := by decide
  have hkind := kinds_of_performedAt h
  rw [hkinds] at hkind
  have hmem := List.eq_of_mem_replicate (List.mem_of_getElem? hkind)
  exact ho (congrArg Prod.snd hmem)

theorem purged_aliceUnserved :
    AuthConfig.Purged (failing 20) (failing 25) "t" bothCached aliceUnserved where
  returned := AuthConfig.returned_of_isSome (by decide)
  returned' := AuthConfig.returned_of_isSome (by decide)
  times i o m n ho _ hn := by
    refine absurd hn (not_performedAt_aliceUnserved ?_)
    cases o <;> simp_all [AuthOp.readsClock, kind]
  order i₁ i₂ m₁ m₂ n₁ n₂ _ _ := by
    rintro ⟨o, ho, hn⟩
    refine absurd hn (not_performedAt_aliceUnserved ?_)
    cases o <;> simp_all [AuthOp.isStore, kind]
  gone := by
    have h : ∀ e ∈ aliceUnserved.hist, e.req = .validateToken "t" := by decide
    intro e he token' hreq
    cases (h e he).symm.trans hreq
  idp m n h := by
    have hmn : 20 + m = 25 + n := Nat.eq_of_mul_eq_mul_right (by decide) h
    simp only [failing, hmn]

end Sample

/-- Alice's token has an id of its own; but it is Bob's logout that has fetched the key. -/
theorem AuthConfig.not_unchanged_of_jti : ¬ ∀ (lib : JsonWebToken String String)
    (a : JwtAuthAdapter) (env env' : AuthEnv String) (t₀ t₀' : Instant) (reqs : List AuthRequest)
    (c c' : AuthConfig String) (token jti : String), lib.Documented → UniqueJti lib reqs →
    Reachable (AuthOp.exec env) (fun _ _ => True)
      (Snapshot.init (.new t₀) (AuthRequest.prog lib a) reqs) c →
    Reachable (AuthOp.exec env') (fun _ _ => True)
      (Snapshot.init (.new t₀') (AuthRequest.prog lib a) reqs) c' →
    AuthConfig.Purged env env' token c c' → lib.tokenJti token = some jti → jti ≠ "" →
    AuthConfig.Unchanged token c c' := by
  intro h
  have hunique : UniqueJti (Sample.lib Sample.tokens) (Sample.sessions "t") := by
    have hone : ∀ r ∈ Sample.sessions "t", ∀ r' ∈ Sample.sessions "t",
        (Sample.lib Sample.tokens).tokenJti r.token ≠ none →
        (Sample.lib Sample.tokens).tokenJti r.token =
          (Sample.lib Sample.tokens).tokenJti r'.token → r.token = r'.token := by decide
    intro r hr r' hr' jti hjti hjti'
    exact hone r hr r' hr' (by simp [hjti]) (hjti.trans hjti'.symm)
  have hsame := h _ _ _ _ _ _ _ _ _ "t" "j1" (Sample.documented_lib _) hunique
    (Reachable.refl.schedule _ _) (Reachable.refl.schedule _ _) Sample.purged_aliceUnserved rfl
    (by decide) 1 _ _ rfl rfl rfl
  revert hsame
  decide

end SettingsService
