import SettingsService.AuthService
import SettingsService.JwksRuns

/-!
# Keys that the provider keeps serving

Calls of the service in flight share one cache of signing keys, and each may refresh it between any
two calls of the others.  As long as all that is fetched resolves an id to one key, the cache does,
whoever has filled it, and so does every lookup of the id.

Main definitions:

* `AuthConfig.Serves` — what is fetched in a run resolves the id to the key;
* `AuthConfig.CacheServes` — the cache resolves it, once it has been filled;
* `AuthConfig.LookedUp` — the key lookup of a call has ended.

Main results:

* `AuthConfig.cacheServes` — **the cache serves what the provider serves**, all through a run;
* `AuthConfig.found_of_serves` — **a key that is served is found** by every lookup.
-/

set_option relaxedAutoImplicit false
set_option autoImplicit false

namespace SettingsService

open Interaction (Prog Snapshot Reachable own)
open Interaction.Prog (Follows Only)
open Jwks (answer byKid fromMap)

/-! ### The traces of a lookup -/

/-- A call cannot fail, so what comes after it is reached. -/
theorem returns_of_perform_bind {Jwk α : Type} {o : AuthOp Jwk}
    {tr : List (Interaction.Answered (AuthOp Jwk) AuthOp.Ret)} {f : o.Ret → Auth Jwk α}
    {y : Except AuthError α} (h : Follows (perform o >>= f).run tr (.pure y)) :
    ∃ r t₁ t₂, tr = t₁ ++ t₂ ∧ Follows (perform o).run t₁ (.pure (.ok r)) ∧
      Follows (f r).run t₂ (.pure y) := by
  rcases Interaction.Prog.returns_except_bind_iff.1 h with ⟨e, -, h⟩ | h
  · obtain ⟨_, he, -⟩ := Interaction.Prog.returns_lift_iff.1 h
    cases he
  · exact h

namespace Jwks

variable {Jwk Key : Type} {lib : JsonWebToken Jwk Key} {kid : String}
  {tr : List (Interaction.Answered (AuthOp Jwk) AuthOp.Ret)}

/-- The two lookups: the current set resolves the id, or the previous one is asked. -/
theorem returns_lookup {y : Except AuthError (Option Key)}
    (h : Follows (lookup lib kid).run tr (.pure y)) : ∃ j : Option Jwk,
      (∃ key, j.bind lib.fromJwk = some key ∧ tr = [⟨.keys kid, j⟩] ∧ y = .ok (some key)) ∨
      j.bind lib.fromJwk = none ∧ ∃ j' : Option Jwk,
        tr = [⟨.keys kid, j⟩, ⟨.previous kid, j'⟩] ∧ y = .ok (j'.bind lib.fromJwk) := by
  rw [lookup] at h
  obtain ⟨j, t, t', rfl, hj, hs⟩ := returns_of_perform_bind h
  obtain rfl := follows_perform_iff.1 hj
  refine ⟨j, ?_⟩
  cases hk : Option.bind j lib.fromJwk with
  | some key =>
      rw [hk] at hs
      obtain ⟨rfl, hy⟩ := Interaction.Prog.follows_pure_iff.1 hs
      cases hy
      exact .inl ⟨key, rfl, rfl, rfl⟩
  | none =>
      rw [hk] at hs
      obtain ⟨o, hy, ho⟩ := Interaction.Prog.returns_except_map_iff.1 hs
      obtain ⟨j', rfl, rfl⟩ := Interaction.Prog.returns_lift_iff.1 ho
      exact .inr ⟨rfl, j', rfl, hy⟩

/-- A refresh: the provider has no key, or a new set has been installed. -/
theorem returns_refresh {y : Except AuthError Unit}
    (h : Follows (refresh lib).run tr (.pure y)) : ∃ ans : Option (List Jwk),
      (∀ set, ans = some set → (byKid lib set).keys.isEmpty = true) ∧ tr = [⟨.fetch, ans⟩] ∨
      y = .ok () ∧ ∃ next, (⟨.install next, ()⟩ :
        Interaction.Answered (AuthOp Jwk) AuthOp.Ret) ∈ tr := by
  rw [refresh] at h
  obtain ⟨ans, t, t', rfl, hans, hs⟩ := returns_of_perform_bind h
  obtain rfl := follows_perform_iff.1 hans
  refine ⟨ans, ?_⟩
  cases ans with
  | none =>
      obtain ⟨rfl, -⟩ := Interaction.Prog.follows_pure_iff.1 hs
      exact .inl ⟨fun set hset => absurd hset (by simp), rfl⟩
  | some set =>
      dsimp only at hs
      by_cases hempty : (byKid lib set).keys.isEmpty = true
      · rw [if_pos hempty] at hs
        obtain ⟨rfl, -⟩ := Interaction.Prog.follows_pure_iff.1 hs
        refine .inl ⟨fun set' hset => ?_, rfl⟩
        cases hset
        exact hempty
      · rw [if_neg hempty] at hs
        -- the three writes that follow cannot fail
        obtain ⟨_, t₁, t₂, rfl, -, hs⟩ := returns_of_perform_bind hs
        obtain ⟨_, t₃, t₄, rfl, hinstall, hs⟩ := returns_of_perform_bind hs
        obtain ⟨_, rfl, -⟩ := Interaction.Prog.returns_lift_iff.1 hs
        obtain rfl := follows_perform_iff.1 hinstall
        exact .inr ⟨rfl, byKid lib set, by simp⟩

/-- Is a call the installation of a new set? -/
def installs : AuthOp Jwk → Bool
  | .install _ => true
  | _ => false

/-- A refresh that comes to installing a set has fetched it. -/
theorem reaches_install_refresh {next : KeySet Jwk}
    {k : Unit → Prog (AuthOp Jwk) AuthOp.Ret (Except AuthError Unit)}
    (h : Follows (refresh lib).run tr (.call (.install next) k)) :
    ∃ set, (⟨.fetch, some set⟩ : Interaction.Answered (AuthOp Jwk) AuthOp.Ret) ∈ tr ∧
      next = byKid lib set ∧ next.keys.isEmpty = false := by
  have hother : ∀ {o : AuthOp Jwk}, installs o = false →
      Only (fun o => installs o = false) (perform o).run := fun ho => ⟨ho, fun _ => trivial⟩
  rw [refresh] at h
  obtain ⟨ans, t, t', rfl, hans, h₁⟩ := (hother rfl).reaches_bind (by simp [installs]) h
  obtain rfl := follows_perform_iff.1 hans
  cases ans with
  | none => cases (Interaction.Prog.follows_pure_iff.1 h₁).2
  | some set =>
      dsimp only at h₁
      by_cases hempty : (byKid lib set).keys.isEmpty = true
      · rw [if_pos hempty] at h₁
        cases (Interaction.Prog.follows_pure_iff.1 h₁).2
      · rw [if_neg hempty] at h₁
        obtain ⟨_, t₁, t₂, rfl, -, h₂⟩ := (hother rfl).reaches_bind (by simp [installs]) h₁
        have hstamp : ∀ _ : Unit, Only (fun o : AuthOp Jwk => installs o = false)
            (perform (.stamp : AuthOp Jwk)).run := fun _ => hother rfl
        obtain ⟨_, h₃⟩ := Only.reaches_left hstamp (by simp [installs]) h₂
        obtain ⟨rfl, hop⟩ := reaches_perform h₃
        cases hop
        exact ⟨set, by simp, rfl, Bool.eq_false_of_not_eq_true hempty⟩

/-- A lookup that comes to installing a set has fetched it. -/
theorem reaches_install {next : KeySet Jwk}
    {k : Unit → Prog (AuthOp Jwk) AuthOp.Ret (Except AuthError Key)}
    (h : Follows (keyFor lib kid).run tr (.call (.install next) k)) :
    ∃ set, (⟨.fetch, some set⟩ : Interaction.Answered (AuthOp Jwk) AuthOp.Ret) ∈ tr ∧
      next = byKid lib set ∧ next.keys.isEmpty = false := by
  have hlookup : (lookup lib kid).run.Only fun o => installs o = false := only_lookup lib rfl rfl
  rw [keyFor] at h
  obtain ⟨o, t, t', rfl, -, h₁⟩ := hlookup.reaches_bind (by simp [installs]) h
  cases o with
  | some key => cases (Interaction.Prog.follows_pure_iff.1 h₁).2
  | none =>
      dsimp only at h₁
      -- after a refresh there are only lookups
      have hrefresh : ∃ k₂, Follows (refresh lib).run t' (.call (.install next) k₂) := by
        refine Only.reaches_left (S := fun o : AuthOp Jwk => installs o = false) (fun _ => ?_)
          (by simp [installs]) h₁
        refine hlookup.except_bind fun o => ?_
        cases o <;> exact trivial
      obtain ⟨k₂, h₂⟩ := hrefresh
      obtain ⟨set, hset, hnext⟩ := reaches_install_refresh h₂
      exact ⟨set, List.mem_append_right _ hset, hnext⟩

end Jwks

namespace JwtAuthAdapter

variable {Jwk Key : Type} {lib : JsonWebToken Jwk Key} {a : JwtAuthAdapter} {token kid : String}
  {tr : List (Interaction.Answered (AuthOp Jwk) AuthOp.Ret)}

/-- A token that names no key is refused without a call. -/
theorem validate_eq_of_no_kid (hkid : ∀ kid, lib.decodeHeader token ≠ some (some kid)) :
    (a.validate lib token).run = .pure (.error .invalidToken) := by
  rw [validate]
  cases hheader : lib.decodeHeader token with
  | none => rfl
  | some header =>
      cases header with
      | none => rfl
      | some kid => exact absurd hheader (hkid kid)

/-- **A validation is a lookup of the key** and then at most two readings of the clock. -/
theorem validate_eq_bind (lib : JsonWebToken Jwk Key) (a : JwtAuthAdapter)
    (hkid : lib.decodeHeader token = some (some kid)) : ∃ rest : Key → Auth Jwk JwtPrincipal,
      (∀ key, Only (fun o => o = .timestamp ∨ o = .systemTime) (rest key).run) ∧
        (a.validate lib token).run = (Jwks.keyFor lib kid >>= rest).run := by
  rw [validate, hkid]
  refine ⟨_, fun key => ?_, rfl⟩
  refine Only.except_bind (S := fun o : AuthOp Jwk => o = .timestamp ∨ o = .systemTime)
    ⟨.inl rfl, fun _ => trivial⟩ fun now => ?_
  split
  · exact trivial
  · refine (only_orInvalid _ _).except_bind fun user => ?_
    refine (only_orInvalid _ _).except_bind fun tenant => ?_
    split
    · exact Only.except_bind (S := fun o : AuthOp Jwk => o = .timestamp ∨ o = .systemTime)
        ⟨.inr rfl, fun _ => trivial⟩ fun now => trivial
    · exact trivial

end JwtAuthAdapter

/-- A call that comes to installing a set has fetched it. -/
theorem AuthRequest.reaches_install {Jwk Key : Type} {lib : JsonWebToken Jwk Key}
    {a : JwtAuthAdapter} {req : AuthRequest} {next : KeySet Jwk}
    {tr : List (Interaction.Answered (AuthOp Jwk) AuthOp.Ret)}
    {k : Unit → Prog (AuthOp Jwk) AuthOp.Ret AuthResult}
    (h : Follows (req.prog lib a) tr (.call (.install next) k)) :
    ∃ set, (⟨.fetch, some set⟩ : Interaction.Answered (AuthOp Jwk) AuthOp.Ret) ∈ tr ∧
      next = byKid lib set ∧ next.keys.isEmpty = false := by
  -- the validation is the first part of every call
  obtain ⟨k', hv⟩ : ∃ k', Follows (a.validate lib req.token).run tr (.call (.install next) k') := by
    cases req with
    | validateToken token =>
        obtain ⟨_, h₁⟩ := Interaction.Prog.reaches_of_bind (fun _ => ⟨_, rfl⟩) h
        refine Only.reaches_left (S := fun o : AuthOp Jwk => Jwks.installs o = false)
          (fun principal => ?_) (by simp [Jwks.installs]) h₁
        refine Only.except_bind ⟨rfl, fun _ => trivial⟩ fun revoked => ?_
        cases revoked <;> exact trivial
    | logout token =>
        obtain ⟨_, h₁⟩ := Interaction.Prog.reaches_of_bind (fun _ => ⟨_, rfl⟩) h
        refine Only.reaches_left (S := fun o : AuthOp Jwk => Jwks.installs o = false)
          (fun principal => ?_) (by simp [Jwks.installs]) h₁
        exact Only.except_bind ⟨rfl, fun _ => trivial⟩ fun now => ⟨rfl, fun _ => trivial⟩
  by_cases hkid : ∃ kid, lib.decodeHeader req.token = some (some kid)
  · obtain ⟨kid, hkid⟩ := hkid
    obtain ⟨rest, hrest, hrun⟩ := JwtAuthAdapter.validate_eq_bind lib a hkid
    rw [hrun] at hv
    obtain ⟨_, hk⟩ := Only.reaches_left hrest (by simp) hv
    exact Jwks.reaches_install hk
  · rw [JwtAuthAdapter.validate_eq_of_no_kid fun kid h => hkid ⟨kid, h⟩] at hv
    cases (Interaction.Prog.follows_pure_iff.1 hv).2

/-! ### Runs in which the key is served -/

namespace AuthConfig

variable {Jwk Key : Type}

/-- The lookup of the signing key, by the call with the token at `i`, has ended with `found`. -/
def LookedUp (lib : JsonWebToken Jwk Key) (c : AuthConfig Jwk) (token : String) (i : ℕ)
    (found : Except AuthError Key) : Prop :=
  (∃ p, c.procs[i]? = some p ∧ p.req.token = token) ∧
    ∃ kid tk, lib.decodeHeader token = some (some kid) ∧ tk <+: own i c.hist ∧
      Follows (Jwks.keyFor lib kid).run tk (.pure found)

/-- **What is fetched in a run resolves the id to the key.**  The calls with the token, when they
ask the provider, get an answer; the others may get none. -/
structure Serves (lib : JsonWebToken Jwk Key) (env : AuthEnv Jwk) (token kid : String) (key : Key)
    (c : AuthConfig Jwk) : Prop where
  /-- Every set that is fetched resolves the id. -/
  resolved : ∀ (n : ℕ) (e : AuthEvent Jwk) (set : KeySet Jwk), c.hist[n]? = some e →
    e.op = .fetch → answer lib env n = some set → fromMap lib set kid = some key
  /-- The calls with the token get an answer. -/
  answered : ∀ (n : ℕ) (e : AuthEvent Jwk), c.hist[n]? = some e → e.op = .fetch →
    e.req.token = token → (answer lib env n).isSome = true

/-- The cache resolves the id to no other key, and to the key once a set has been installed. -/
structure CacheServes (lib : JsonWebToken Jwk Key) (kid : String) (key : Key)
    (hist : List (AuthEvent Jwk)) (w : AuthWorld Jwk) : Prop where
  /-- The current set. -/
  keys : ∀ k, fromMap lib w.keys kid = some k → k = key
  /-- The previous set. -/
  previous : ∀ k, fromMap lib w.previous kid = some k → k = key
  /-- There is a current set. -/
  installed : (∃ e ∈ hist, Jwks.installs e.op = true) → fromMap lib w.keys kid = some key

variable {lib : JsonWebToken Jwk Key} {a : JwtAuthAdapter} {env : AuthEnv Jwk} {t₀ : Instant}
  {reqs : List AuthRequest} {c : AuthConfig Jwk} {token kid : String} {key : Key}

/-- **The cache serves what the provider serves.** -/
theorem cacheServes (hc : Reachable (AuthOp.exec env) (fun _ _ => True)
    (Snapshot.init (.new t₀) (AuthRequest.prog lib a) reqs) c)
    (hserves : c.Serves lib env token kid key) (n : ℕ) : CacheServes lib kid key (c.hist.take n)
      (Interaction.replay (AuthOp.exec env) (.new t₀) (c.hist.take n)) := by
  induction n with
  | zero =>
      refine ⟨fun k hk => ?_, fun k hk => ?_, fun ⟨e, he, _⟩ => ?_⟩
      · cases hk
      · cases hk
      · simp at he
  | succ n ih =>
      cases hn : c.hist[n]? with
      | none =>
          have hlen := List.getElem?_eq_none_iff.1 hn
          rw [List.take_of_length_le hlen] at ih
          rwa [List.take_of_length_le (Nat.le_succ_of_le hlen)]
      | some e =>
          rw [List.take_add_one, hn, Option.toList_some, Interaction.replay_snoc]
          obtain ⟨i, req, o, r, s, mark⟩ := e
          cases o with
          | keep =>
              exact ⟨ih.keys, ih.keys, fun h => ih.installed (by simpa [Jwks.installs] using h)⟩
          | install next =>
              obtain ⟨-, -, k, hk⟩ := hc.next hn
              obtain ⟨set, hset, rfl, hne⟩ := AuthRequest.reaches_install hk
              have hkey : fromMap lib (byKid lib set) kid = some key := by
                obtain ⟨m, ⟨i', req', o', r', s', mark'⟩, hm, -, hx⟩ :=
                  Interaction.mem_own_iff.1 hset
                obtain ⟨-, hm⟩ := getElem?_take_eq_some_iff.1 hm
                cases hx
                obtain ⟨hsteps, hidp⟩ := reply_eq hc hm
                refine hserves.resolved m _ _ hm rfl ?_
                have hidp' : env.idp m = some set := by
                  rw [← hsteps]
                  exact hidp.symm
                rw [answer, hidp', Option.bind_some, if_neg (by simp [hne])]
              refine ⟨fun k hk => ?_, ih.previous, fun _ => hkey⟩
              exact Option.some.inj (hk.symm.trans hkey)
          | _ =>
              exact ⟨ih.keys, ih.previous, fun h => ih.installed (by simpa [Jwks.installs] using h)⟩

/-- What one of the calls of a process finds. -/
theorem found_in_cache (hc : Reachable (AuthOp.exec env) (fun _ _ => True)
    (Snapshot.init (.new t₀) (AuthRequest.prog lib a) reqs) c)
    (hserves : c.Serves lib env token kid key) {i : ℕ}
    {pre post : List (Interaction.Answered (AuthOp Jwk) AuthOp.Ret)} {o : AuthOp Jwk} {r : o.Ret}
    (hown : own i c.hist = pre ++ ⟨o, r⟩ :: post) : ∃ (w : AuthWorld Jwk) (n : ℕ),
      own i (c.hist.take n) = pre ∧ r = (o.exec env w).1 ∧
        CacheServes lib kid key (c.hist.take n) w := by
  obtain ⟨n, ⟨i', req, o', r', s, mark⟩, he, rfl, hpre, hx⟩ := Interaction.exists_of_own_eq hown
  have hbefore : s = Interaction.replay (AuthOp.exec env) (.new t₀) (c.hist.take n) :=
    (hc.next he).before
  have hcache := cacheServes hc hserves n
  cases hx
  rw [← hbefore] at hcache
  exact ⟨s, n, hpre, (reply_eq hc he).2, hcache⟩

/-- What the two lookups find, when they come after the calls `pre` of their process. -/
theorem looked_of_serves (hc : Reachable (AuthOp.exec env) (fun _ _ => True)
    (Snapshot.init (.new t₀) (AuthRequest.prog lib a) reqs) c)
    (hserves : c.Serves lib env token kid key) {i : ℕ}
    {pre tr post : List (Interaction.Answered (AuthOp Jwk) AuthOp.Ret)}
    {y : Except AuthError (Option Key)} (hown : own i c.hist = pre ++ (tr ++ post))
    (h : Follows (Jwks.lookup lib kid).run tr (.pure y)) : ∃ o, y = .ok o ∧
      (∀ k, o = some k → k = key) ∧ ((∃ next, (⟨.install next, ()⟩ :
        Interaction.Answered (AuthOp Jwk) AuthOp.Ret) ∈ pre) → o = some key) := by
  obtain ⟨j, h⟩ := Jwks.returns_lookup h
  rcases h with ⟨k, hj, rfl, rfl⟩ | ⟨hj, j', rfl, rfl⟩
  · obtain ⟨w, n, -, rfl, hcache⟩ := found_in_cache hc hserves hown
    obtain rfl : k = key := hcache.keys k hj
    exact ⟨some k, rfl, fun k' hk' => (Option.some.inj hk').symm, fun _ => rfl⟩
  · refine ⟨_, rfl, fun k hk => ?_, fun ⟨next, hnext⟩ => ?_⟩
    · have hown' : own i c.hist = (pre ++ [⟨.keys kid, j⟩]) ++ ⟨.previous kid, j'⟩ :: post := by
        simpa using hown
      obtain ⟨w, n, -, rfl, hcache⟩ := found_in_cache hc hserves hown'
      exact hcache.previous k hk
    · -- once a set has been installed, the current set resolves the id
      obtain ⟨w, n, rfl, rfl, hcache⟩ := found_in_cache hc hserves hown
      obtain ⟨m, e, hm, -, hx⟩ := Interaction.mem_own_iff.1 hnext
      have hinstalled := hcache.installed ⟨e, List.mem_of_getElem? hm, by
        obtain ⟨i', req, o, r, s, mark⟩ := e
        cases hx
        rfl⟩
      rw [fromMap] at hinstalled
      exact absurd (hj.symm.trans hinstalled) (by simp)

/-- A refresh by a call with the token finds keys, and installs them. -/
theorem installed_of_serves (hc : Reachable (AuthOp.exec env) (fun _ _ => True)
    (Snapshot.init (.new t₀) (AuthRequest.prog lib a) reqs) c)
    (hserves : c.Serves lib env token kid key) {i : ℕ} {req : AuthRequest}
    (hreq : reqs[i]? = some req) (htoken : req.token = token)
    {pre tr post : List (Interaction.Answered (AuthOp Jwk) AuthOp.Ret)} {y : Except AuthError Unit}
    (hown : own i c.hist = pre ++ (tr ++ post))
    (h : Follows (Jwks.refresh lib).run tr (.pure y)) : y = .ok () ∧ ∃ next,
      (⟨.install next, ()⟩ : Interaction.Answered (AuthOp Jwk) AuthOp.Ret) ∈ tr := by
  obtain ⟨ans, ⟨hempty, rfl⟩ | hinstall⟩ := Jwks.returns_refresh h
  · obtain ⟨n, ⟨i', req', o, r, s, mark⟩, he, rfl, -, hx⟩ := Interaction.exists_of_own_eq hown
    have hreq' : req' = req := Option.some.inj ((hc.req_of_event he).symm.trans hreq)
    cases hx
    obtain ⟨rfl, hidp⟩ := reply_eq hc he
    have hanswer := hserves.answered _ _ he rfl (by rw [hreq', htoken])
    obtain ⟨set, hset⟩ := Option.isSome_iff_exists.1 hanswer
    obtain ⟨set', hidp', hset'⟩ := Option.bind_eq_some_iff.1 hset
    rw [if_pos (hempty set' (hidp.trans hidp'))] at hset'
    cases hset'
  · exact hinstall

/-- **A key that is served is found.** -/
theorem found_of_serves (hc : Reachable (AuthOp.exec env) (fun _ _ => True)
    (Snapshot.init (.new t₀) (AuthRequest.prog lib a) reqs) c)
    (hserves : c.Serves lib env token kid key) (hkid : lib.decodeHeader token = some (some kid))
    {i : ℕ} {found : Except AuthError Key} (h : c.LookedUp lib token i found) :
    found = .ok key := by
  obtain ⟨⟨p, hp, htoken⟩, kid', tk, hkid', ⟨post, hown⟩, hk⟩ := h
  obtain rfl : kid = kid' := by simpa [hkid] using hkid'
  rw [Jwks.keyFor] at hk
  rcases Interaction.Prog.returns_except_bind_iff.1 hk with ⟨e, rfl, h₁⟩ | ⟨o, t₁, t, rfl, h₁, h₂⟩
  · have hown₁ : own i c.hist = [] ++ (tk ++ post) := hown.symm
    obtain ⟨o, ho, -⟩ := looked_of_serves hc hserves hown₁ h₁
    cases ho
  · have hown₁ : own i c.hist = [] ++ (t₁ ++ (t ++ post)) := by
      rw [← hown, List.append_assoc, List.nil_append]
    obtain ⟨o', ho, hkey, -⟩ := looked_of_serves hc hserves hown₁ h₁
    cases ho
    cases o with
    | some k =>
        obtain ⟨-, hf⟩ := Interaction.Prog.follows_pure_iff.1 h₂
        cases hf
        rw [hkey k rfl]
    | none =>
        dsimp only at h₂
        rcases Interaction.Prog.returns_except_bind_iff.1 h₂ with ⟨e, rfl, h₃⟩ |
          ⟨_, t₂, t₃, rfl, h₃, h₄⟩
        · have hown₂ : own i c.hist = t₁ ++ (t ++ post) := hown₁
          cases (installed_of_serves hc hserves (hc.req_of_proc hp) htoken hown₂ h₃).1
        · have hown₂ : own i c.hist = t₁ ++ (t₂ ++ (t₃ ++ post)) := by
            rw [hown₁, List.nil_append, List.append_assoc]
          obtain ⟨-, next, hnext⟩ :=
            installed_of_serves hc hserves (hc.req_of_proc hp) htoken hown₂ h₃
          -- the set that this call has installed answers its second lookup
          have hpre : ∃ next, (⟨.install next, ()⟩ :
              Interaction.Answered (AuthOp Jwk) AuthOp.Ret) ∈ t₁ ++ t₂ :=
            ⟨next, List.mem_append_right _ hnext⟩
          rcases Interaction.Prog.returns_except_bind_iff.1 h₄ with ⟨e, rfl, h₅⟩ |
            ⟨o, t₄, t₅, rfl, h₅, h₆⟩
          · have hown₃ : own i c.hist = (t₁ ++ t₂) ++ (t₃ ++ post) := by
              rw [hown₂, List.append_assoc]
            obtain ⟨o, ho, -⟩ := looked_of_serves hc hserves hown₃ h₅
            cases ho
          · have hown₃ : own i c.hist = (t₁ ++ t₂) ++ (t₄ ++ (t₅ ++ post)) := by
              rw [hown₂, List.append_assoc, List.append_assoc]
            obtain ⟨o', ho, -, hfound⟩ := looked_of_serves hc hserves hown₃ h₅
            cases ho
            rw [hfound hpre] at h₆
            obtain ⟨-, hf⟩ := Interaction.Prog.follows_pure_iff.1 h₆
            cases hf
            rfl

end AuthConfig

end SettingsService
