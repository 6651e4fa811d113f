import SettingsService.Jwt

/-!
# Runs of key lookups

Lookups of signing keys, one at a time, against any history of answers of the identity provider.
The cache holds the last two sets it has fetched and fetches only for an id that neither of them
resolves.  So an id that is known is served however long ago the set was fetched; and a second fetch
of one set throws the set before it away.

Main definitions:

* `Jwks.fromMap`, `Jwks.cached` — what a set resolves, and what the cache resolves;
* `Jwks.call`, `Jwks.worldAt` — one lookup, and the state before a lookup of a run;
* `Jwks.fetchesOf`, `Jwks.logAt` — the sets a program fetches, and those fetched so far in a run;
* `Jwks.FreshKeys`, `Jwks.AsksInTime` — a set is not trusted past its time, and nothing asks it to
  be;
* `Jwks.StaysResolvable`, `Jwks.KeptByRefreshes` — no downtime for an id, and what that takes of the
  refreshes.

Main results:

* `Jwks.call_outcome` — **a lookup** is answered from the cache, or by one fetch;
* `Jwks.cache_eq` — **the cache holds the last two sets fetched**;
* `Jwks.freshKeys_iff` — **a set is not trusted past its time exactly when** no known id is asked
  for after it;
* `Jwks.staysResolvable_iff` — **an id stays resolvable through a rotation exactly when** every
  refresh finds it in the current set or in the new one;
* `Jwks.not_freshKeys`, `Jwks.not_staysResolvable` — a set trusted past its time, and an id lost.
-/

set_option relaxedAutoImplicit false
set_option autoImplicit false

namespace SettingsService

open Interaction (Prog)
open Interaction.Prog (Performs)

/-- A provider that answers with the keys `A` to its first `n` calls and with the keys `B` from then
on; calls are a hundred seconds apart. -/
def Sample.movingIdp (A B : List String) (n : ℕ) : AuthEnv String where
  clock m := m * (100 * second)
  clock_mono := fun _ _ h => Nat.mul_le_mul_right _ h
  idp m := if m < n then some A else some B

namespace Jwks

variable {Jwk Key : Type} (lib : JsonWebToken Jwk Key)

/-! ### One lookup -/

/-- `key_from_map`: the key an id resolves to in a set. -/
def fromMap (set : KeySet Jwk) (kid : String) : Option Key := (set.lookup kid).bind lib.fromJwk

/-- The key an id resolves to in the current set, or else in the previous one. -/
def cached (w : AuthWorld Jwk) (kid : String) : Option Key :=
  (fromMap lib w.keys kid).or (fromMap lib w.previous kid)

/-- `key_for` running alone. -/
def call (env : AuthEnv Jwk) (kid : String) (w : AuthWorld Jwk) :
    Except AuthError Key × AuthWorld Jwk :=
  Prog.run (AuthOp.exec env) (keyFor lib kid).run w

/-- The key set in the answer of the identity provider to a fetch, if there is a key with an id in
it. -/
def answer (env : AuthEnv Jwk) (n : ℕ) : Option (KeySet Jwk) :=
  (env.idp n).bind fun set =>
    if (byKid lib set).keys.isEmpty then none else some (byKid lib set)

/-- Does a call go to the identity provider? -/
def contacts : AuthOp Jwk → Bool
  | .fetch => true
  | _ => false

/-- The set a call fetches, with the time of the fetch. -/
def fetchedBy (env : AuthEnv Jwk) (o : AuthOp Jwk) (w : AuthWorld Jwk) :
    List (Instant × KeySet Jwk) :=
  if contacts o then (answer lib env w.steps).toList.map fun set => (env.clock w.steps, set) else []

/-- The sets a program fetches when it runs alone. -/
def fetchesOf (env : AuthEnv Jwk) {α : Type} :
    Prog (AuthOp Jwk) AuthOp.Ret α → AuthWorld Jwk → List (Instant × KeySet Jwk)
  | .pure _, _ => []
  | .call o k, w => fetchedBy lib env o w ++ fetchesOf env (k (o.exec env w).1) (o.exec env w).2

/-- The cache after a fetch. -/
def refreshed (w : AuthWorld Jwk) (set : KeySet Jwk) (now : Instant) : AuthWorld Jwk :=
  { w with keys := set, previous := w.keys, fetchedAt := now }

variable {lib} {env : AuthEnv Jwk} {kid : String} {w : AuthWorld Jwk}

theorem run_perform (o : AuthOp Jwk) (w : AuthWorld Jwk) :
    Prog.run (AuthOp.exec env) (perform o).run w = (.ok (o.exec env w).1, (o.exec env w).2) := rfl

/-- The two lookups, running alone; if nothing is found, both have been made. -/
theorem run_lookup (lib : JsonWebToken Jwk Key) (env : AuthEnv Jwk) (kid : String)
    (w : AuthWorld Jwk) : ∃ n, (cached lib w kid = none → n = 2) ∧
      Prog.run (AuthOp.exec env) (lookup lib kid).run w =
        (.ok (cached lib w kid), { w with steps := w.steps + n }) := by
  rw [lookup, Prog.run_except_bind_of_ok (run_perform _ _)]
  cases hk : fromMap lib w.keys kid with
  | some k =>
      have hk' : Option.bind ((AuthOp.keys kid).exec env w).1 lib.fromJwk = some k := hk
      rw [hk', cached, hk, Option.some_or]
      exact ⟨1, fun h => absurd h (by simp), rfl⟩
  | none =>
      have hk' : Option.bind ((AuthOp.keys kid).exec env w).1 lib.fromJwk = none := hk
      rw [hk', cached, hk, Option.none_or]
      exact ⟨2, fun _ => rfl, rfl⟩

/-- The lookups contact nobody. -/
theorem only_cache_lookup (lib : JsonWebToken Jwk Key) (kid : String) :
    (lookup lib kid).run.Only fun o => ¬ contacts o = true :=
  only_lookup lib Bool.false_ne_true Bool.false_ne_true

theorem fetchesOf_bind {α β : Type} (p : Prog (AuthOp Jwk) AuthOp.Ret α)
    (f : α → Prog (AuthOp Jwk) AuthOp.Ret β) (w : AuthWorld Jwk) :
    fetchesOf lib env (p >>= f) w = fetchesOf lib env p w ++
      fetchesOf lib env (f (Prog.run (AuthOp.exec env) p w).1)
        (Prog.run (AuthOp.exec env) p w).2 := by
  induction p generalizing w with
  | pure a => rfl
  | call o k ih =>
      rw [Prog.bind_call, fetchesOf, fetchesOf, ih, Prog.run_call, List.append_assoc]

/-- A program that contacts nobody fetches nothing. -/
theorem fetchesOf_of_only {α : Type} {p : Prog (AuthOp Jwk) AuthOp.Ret α}
    (hp : p.Only fun o => ¬ contacts o = true) (w : AuthWorld Jwk) :
    fetchesOf lib env p w = [] := by
  induction p generalizing w with
  | pure a => rfl
  | call o k ih =>
      rw [fetchesOf, ih _ (hp.2 _), List.append_nil, fetchedBy, if_neg hp.1]

theorem fetchesOf_except_bind_of_ok {α β : Type} {x : Auth Jwk α} {f : α → Auth Jwk β}
    {w w' : AuthWorld Jwk} {a : α} (hx : Prog.run (AuthOp.exec env) x.run w = (.ok a, w')) :
    fetchesOf lib env (x >>= f).run w =
      fetchesOf lib env x.run w ++ fetchesOf lib env (f a).run w' := by
  rw [ExceptT.run_bind, fetchesOf_bind, hx]

theorem fetchesOf_except_bind_of_error {α β : Type} {x : Auth Jwk α} {f : α → Auth Jwk β}
    {w w' : AuthWorld Jwk} {e : AuthError}
    (hx : Prog.run (AuthOp.exec env) x.run w = (.error e, w')) :
    fetchesOf lib env (x >>= f).run w = fetchesOf lib env x.run w := by
  rw [ExceptT.run_bind, fetchesOf_bind, hx]
  exact List.append_nil _

/-- A refresh, running alone: the answer becomes the current set, or nothing changes. -/
theorem run_refresh (lib : JsonWebToken Jwk Key) (env : AuthEnv Jwk) (w : AuthWorld Jwk) :
    ∃ n, Prog.run (AuthOp.exec env) (refresh lib).run w = match answer lib env w.steps with
      | none => (.error .unavailable, { w with steps := w.steps + n })
      | some set => (.ok (), { refreshed w set (env.clock (w.steps + 3)) with
          steps := w.steps + n }) := by
  rw [refresh, Prog.run_except_bind_of_ok (run_perform _ _), answer]
  cases hidp : env.idp w.steps with
  | none =>
      have hidp' : (AuthOp.fetch.exec env w).1 = none := hidp
      rw [hidp']
      exact ⟨1, rfl⟩
  | some set =>
      have hidp' : (AuthOp.fetch.exec env w).1 = some set := hidp
      rw [hidp', Option.bind_some]
      by_cases hempty : (byKid lib set).keys.isEmpty = true
      · rw [if_pos hempty]
        dsimp only
        rw [if_pos hempty]
        exact ⟨1, rfl⟩
      · rw [if_neg hempty]
        dsimp only
        rw [if_neg hempty]
        exact ⟨4, rfl⟩

/-- A refresh fetches the answer. -/
theorem fetchesOf_refresh (lib : JsonWebToken Jwk Key) (env : AuthEnv Jwk) (w : AuthWorld Jwk) :
    fetchesOf lib env (refresh lib).run w =
      (answer lib env w.steps).toList.map fun set => (env.clock w.steps, set) := by
  rw [refresh, fetchesOf_except_bind_of_ok (run_perform _ _)]
  have hfetch : fetchesOf lib env (perform AuthOp.fetch).run w =
      (answer lib env w.steps).toList.map fun set => (env.clock w.steps, set) :=
    List.append_nil _
  rw [hfetch]
  refine (congrArg _ (fetchesOf_of_only ?_ _)).trans (List.append_nil _)
  split
  · exact trivial
  · rename_i set _
    by_cases hempty : (byKid lib set).keys.isEmpty = true
    · dsimp only
      rw [if_pos hempty]
      exact trivial
    · dsimp only
      rw [if_neg hempty]
      exact ⟨Bool.false_ne_true, fun _ => ⟨Bool.false_ne_true, fun _ =>
        ⟨Bool.false_ne_true, fun _ => trivial⟩⟩⟩

variable (lib env kid w)

/-- **How a lookup ends**: the key is in the cache; or the identity provider has no answer; or its
answer is the current set from then on, and the lookup is made again. -/
inductive Outcome : Except AuthError Key → AuthWorld Jwk → List (Instant × KeySet Jwk) → Prop
  | known {key : Key} (hk : cached lib w kid = some key) (n : ℕ) :
      Outcome (.ok key) { w with steps := w.steps + n } []
  | unavailable (hk : cached lib w kid = none) (ha : answer lib env (w.steps + 2) = none) (n : ℕ) :
      Outcome (.error .unavailable) { w with steps := w.steps + n } []
  | fetched {set : KeySet Jwk} (hk : cached lib w kid = none)
      (ha : answer lib env (w.steps + 2) = some set) (n : ℕ) :
      Outcome ((cached lib (refreshed w set (env.clock (w.steps + 5))) kid).elim
          (.error .invalidToken) .ok)
        { refreshed w set (env.clock (w.steps + 5)) with steps := w.steps + n }
        [(env.clock (w.steps + 2), set)]

/-- **Every lookup ends in one of these ways.** -/
theorem call_outcome : Outcome lib env kid w (call lib env kid w).1 (call lib env kid w).2
    (fetchesOf lib env (keyFor lib kid).run w) := by
  obtain ⟨n, hn, hlookup⟩ := run_lookup lib env kid w
  have hnone : fetchesOf lib env (lookup lib kid).run w = [] :=
    fetchesOf_of_only (only_cache_lookup lib kid) w
  rw [call, keyFor, Prog.run_except_bind_of_ok hlookup, fetchesOf_except_bind_of_ok hlookup, hnone,
    List.nil_append]
  cases hk : cached lib w kid with
  | some key => exact .known hk n
  | none =>
      obtain rfl := hn hk
      obtain ⟨n', hrefresh⟩ := run_refresh lib env { w with steps := w.steps + 2 }
      have hfetches := fetchesOf_refresh lib env { w with steps := w.steps + 2 }
      dsimp only at hrefresh hfetches ⊢
      cases ha : answer lib env (w.steps + 2) with
      | none =>
          rw [ha] at hrefresh hfetches
          rw [Prog.run_except_bind_of_error hrefresh, fetchesOf_except_bind_of_error hrefresh,
            hfetches]
          have h := Outcome.unavailable hk ha (2 + n')
          rw [← Nat.add_assoc] at h
          exact h
      | some set =>
          rw [ha] at hrefresh hfetches
          dsimp only at hrefresh
          rw [Prog.run_except_bind_of_ok hrefresh, fetchesOf_except_bind_of_ok hrefresh, hfetches]
          -- the set fetched is the current one when the lookup is made again
          generalize hW : ({ refreshed { w with steps := w.steps + 2 } set
            (env.clock (w.steps + 2 + 3)) with steps := w.steps + 2 + n' } : AuthWorld Jwk) = W
          obtain ⟨m, -, hagain⟩ := run_lookup lib env kid W
          have hnone' : fetchesOf lib env (lookup lib kid).run W = [] :=
            fetchesOf_of_only (only_cache_lookup lib kid) W
          rw [Prog.run_except_bind_of_ok hagain, fetchesOf_except_bind_of_ok hagain, hnone']
          have h := Outcome.fetched hk ha (2 + n' + m)
          rw [← Nat.add_assoc, ← Nat.add_assoc] at h
          have hcached : cached lib (refreshed w set (env.clock (w.steps + 5))) kid =
              cached lib W kid := by
            rw [← hW]
            rfl
          rw [hcached] at h
          subst hW
          cases hc : cached lib _ kid with
          | some key =>
              rw [hc] at h
              exact h
          | none =>
              rw [hc] at h
              exact h

/-- **A lookup contacts the identity provider exactly when the cache does not resolve the id.** -/
theorem performs_contacts_iff : Performs (AuthOp.exec env) (fun o => contacts o = true)
    (keyFor lib kid).run w ↔ cached lib w kid = none := by
  obtain ⟨n, -, hlookup⟩ := run_lookup lib env kid w
  have hnot : ¬ Performs (AuthOp.exec env) (fun o => contacts o = true) (lookup lib kid).run w :=
    Prog.Only.not_performs (only_cache_lookup lib kid)
  rw [keyFor, Prog.performs_except_bind, hlookup]
  constructor
  · rintro (h | ⟨key, hkey, h⟩)
    · exact absurd h hnot
    · cases hkey
      cases hk : cached lib w kid with
      | none => rfl
      | some key =>
          rw [hk] at h
          exact absurd h id
  · intro hk
    refine .inr ⟨none, by rw [hk], ?_⟩
    exact .inl rfl

variable {lib env kid w}

/-! ### Runs of lookups -/

section Runs

variable (lib) (env) (kids : List String)

/-- The state before the lookup at position `i` of a run that starts with an empty cache. -/
def cacheAt (i : ℕ) : AuthWorld Jwk :=
  (kids.take i).foldl (fun w kid => (call lib env kid w).2) (AuthWorld.new (env.clock 0))

/-- The sets that the lookup at position `i` fetches. -/
def fetchesAt (i : ℕ) : List (Instant × KeySet Jwk) :=
  kids[i]?.elim [] fun kid => fetchesOf lib env (keyFor lib kid).run (cacheAt lib env kids i)

/-- The sets fetched before the lookup at position `i`, oldest first. -/
def logAt (i : ℕ) : List (Instant × KeySet Jwk) :=
  (List.range i).flatMap (fetchesAt lib env kids)

/-- The last set of a log, and the one before it. -/
def lastSet (log : List (Instant × KeySet Jwk)) : KeySet Jwk := (log.getLast?.map Prod.snd).getD ∅

end Runs

variable {kids : List String} {i : ℕ}

theorem logAt_succ (i : ℕ) :
    logAt lib env kids (i + 1) = logAt lib env kids i ++ fetchesAt lib env kids i := by
  rw [logAt, List.range_succ, List.flatMap_append, List.flatMap_singleton, ← logAt]

/-- **One more lookup of a run.** -/
theorem outcome_at (hkid : kids[i]? = some kid) : Outcome lib env kid (cacheAt lib env kids i)
    (call lib env kid (cacheAt lib env kids i)).1 (cacheAt lib env kids (i + 1))
    (fetchesAt lib env kids i) := by
  have hnext : cacheAt lib env kids (i + 1) = (call lib env kid (cacheAt lib env kids i)).2 := by
    rw [cacheAt, List.take_add_one, hkid, List.foldl_append]
    rfl
  have hfetches : fetchesAt lib env kids i =
      fetchesOf lib env (keyFor lib kid).run (cacheAt lib env kids i) := by
    rw [fetchesAt, hkid, Option.elim_some]
  rw [hnext, hfetches]
  exact call_outcome lib env kid _

theorem cacheAt_of_getElem?_eq_none (hkid : kids[i]? = none) :
    cacheAt lib env kids (i + 1) = cacheAt lib env kids i ∧ fetchesAt lib env kids i = [] := by
  constructor
  · rw [cacheAt, cacheAt, List.take_add_one, hkid, Option.toList_none, List.append_nil]
  · rw [fetchesAt, hkid, Option.elim_none]

/-- **The cache holds the last two sets fetched.** -/
theorem cache_eq (i : ℕ) :
    (cacheAt lib env kids i).keys = lastSet (logAt lib env kids i) ∧
      (cacheAt lib env kids i).previous = lastSet (logAt lib env kids i).dropLast := by
  induction i with
  | zero => exact ⟨rfl, rfl⟩
  | succ i ih =>
      obtain ⟨ihk, ihp⟩ := ih
      rw [logAt_succ]
      cases hkid : kids[i]? with
      | none =>
          obtain ⟨hsame, hnil⟩ := @cacheAt_of_getElem?_eq_none _ _ lib env kids i hkid
          rw [hsame, hnil, List.append_nil]
          exact ⟨ihk, ihp⟩
      | some kid =>
          have hout := @outcome_at _ _ lib env kid kids i hkid
          generalize (call lib env kid (cacheAt lib env kids i)).1 = res at hout
          generalize cacheAt lib env kids (i + 1) = w' at hout ⊢
          generalize fetchesAt lib env kids i = fs at hout ⊢
          cases hout with
          | known hk n =>
              rw [List.append_nil]
              exact ⟨ihk, ihp⟩
          | unavailable hk ha n =>
              rw [List.append_nil]
              exact ⟨ihk, ihp⟩
          | fetched hk ha n =>
              rw [List.dropLast_concat, ← ihk, lastSet, List.getLast?_concat]
              exact ⟨rfl, rfl⟩

/-- Every set of the log was the answer to a fetch. -/
theorem exists_answer_of_mem_logAt {f : Instant} {set : KeySet Jwk} {i : ℕ}
    (h : (f, set) ∈ logAt lib env kids i) : ∃ n, f = env.clock n ∧ answer lib env n = some set := by
  obtain ⟨j, -, hj⟩ := List.mem_flatMap.1 h
  cases hkid : kids[j]? with
  | none =>
      rw [(cacheAt_of_getElem?_eq_none hkid).2] at hj
      cases hj
  | some kid =>
      have hout := @outcome_at _ _ lib env kid kids j hkid
      generalize (call lib env kid (cacheAt lib env kids j)).1 = res at hout
      generalize cacheAt lib env kids (j + 1) = w' at hout
      generalize fetchesAt lib env kids j = fs at hout hj
      cases hout with
      | known hk n => cases hj
      | unavailable hk ha n => cases hj
      | fetched hk ha n =>
          obtain ⟨rfl, rfl⟩ := Prod.mk.inj (List.mem_singleton.1 hj)
          exact ⟨_, rfl, ha⟩

/-! ### The age of a key set -/

section Age

variable (lib) (env) (kids : List String)

/-- **A fetched set is not trusted past its time.** -/
structure FreshKeys : Prop where
  /-- A key found without the identity provider comes from sets of which the last was fetched at
  most `JWKS_TTL` ago. -/
  fresh : ∀ i kid key, kids[i]? = some kid →
    (call lib env kid (cacheAt lib env kids i)).1 = .ok key →
    ¬ Performs (AuthOp.exec env) (fun o => contacts o = true) (keyFor lib kid).run
      (cacheAt lib env kids i) →
    ∃ f set, (logAt lib env kids i).getLast? = some (f, set) ∧
      env.clock (cacheAt lib env kids i).steps ≤ f + jwksTtl
  /-- A key that the identity provider has withdrawn for longer than that is not in the current set
  when a key is found. -/
  withdrawn : ∀ i kid key, kids[i]? = some kid →
    (call lib env kid (cacheAt lib env kids i)).1 = .ok key →
    ∀ T jwk, (∀ n set, T ≤ env.clock n → answer lib env n = some set →
        set.lookup kid ≠ some jwk) →
      T + jwksTtl < env.clock (cacheAt lib env kids i).steps →
        (call lib env kid (cacheAt lib env kids i)).2.keys.lookup kid ≠ some jwk

/-- No lookup that comes more than `JWKS_TTL` after the last fetch asks for an id that one of the
last two sets resolves. -/
def AsksInTime : Prop :=
  ∀ i kid f set, kids[i]? = some kid → (logAt lib env kids i).getLast? = some (f, set) →
    f + jwksTtl < env.clock (cacheAt lib env kids i).steps →
      fromMap lib set kid = none ∧ fromMap lib (lastSet (logAt lib env kids i).dropLast) kid = none

end Age

theorem lastSet_of_getLast? {log : List (Instant × KeySet Jwk)} {f : Instant} {set : KeySet Jwk}
    (h : log.getLast? = some (f, set)) : lastSet log = set := by
  rw [lastSet, h]
  rfl

/-- What the cache resolves, by the log. -/
theorem cached_cacheAt (i : ℕ) (kid : String) : cached lib (cacheAt lib env kids i) kid =
    (fromMap lib (lastSet (logAt lib env kids i)) kid).or
      (fromMap lib (lastSet (logAt lib env kids i).dropLast) kid) := by
  rw [cached, (cache_eq i).1, (cache_eq i).2]

/-- If the cache resolves anything, a set has been fetched. -/
theorem exists_last_of_cached {key : Key} (h : cached lib (cacheAt lib env kids i) kid = some key) :
    ∃ f set, (logAt lib env kids i).getLast? = some (f, set) := by
  cases hlog : (logAt lib env kids i).getLast? with
  | some last => exact ⟨last.1, last.2, rfl⟩
  | none =>
      rw [cached_cacheAt, List.getLast?_eq_none_iff.1 hlog] at h
      cases h

/-- A key that the cache resolves is returned. -/
theorem call_of_cached {key : Key} (h : cached lib w kid = some key) :
    (call lib env kid w).1 = .ok key := by
  have hout := call_outcome lib env kid w
  generalize (call lib env kid w).1 = res at hout ⊢
  generalize (call lib env kid w).2 = w' at hout
  generalize fetchesOf lib env (keyFor lib kid).run w = fs at hout
  cases hout with
  | known hk n =>
      rw [hk, Option.some.injEq] at h
      rw [h]
  | unavailable hk ha n =>
      rw [hk] at h
      cases h
  | fetched hk ha n =>
      rw [hk] at h
      cases h

/-- Where no known id is asked for late, what the cache resolves comes from a set within its
time. -/
theorem AsksInTime.fresh_of_cached (h : AsksInTime lib env kids) (hkid : kids[i]? = some kid)
    {key : Key} (hk : cached lib (cacheAt lib env kids i) kid = some key) :
    ∃ f set, (logAt lib env kids i).getLast? = some (f, set) ∧
      env.clock (cacheAt lib env kids i).steps ≤ f + jwksTtl := by
  obtain ⟨f, set, hlast⟩ := exists_last_of_cached hk
  refine ⟨f, set, hlast, ?_⟩
  by_contra hlate
  obtain ⟨hset, hprev⟩ := h i kid f set hkid hlast (Nat.lt_of_not_le hlate)
  rw [cached_cacheAt, lastSet_of_getLast? hlast, hset, hprev] at hk
  cases hk

/-- **A fetched set is not trusted past its time exactly when** no known id is asked for after
it. -/
theorem freshKeys_iff (lib : JsonWebToken Jwk Key) (env : AuthEnv Jwk) (kids : List String) :
    FreshKeys lib env kids ↔ AsksInTime lib env kids := by
  constructor
  · intro h i kid f set hkid hlast hlate
    have hnone : cached lib (cacheAt lib env kids i) kid = none := by
      by_contra hne
      obtain ⟨key, hk⟩ := Option.ne_none_iff_exists'.1 hne
      have hnot := mt (performs_contacts_iff lib env kid (cacheAt lib env kids i)).1 hne
      obtain ⟨f', set', hlast', hfresh⟩ := h.fresh i kid key hkid (call_of_cached hk) hnot
      rw [hlast, Option.some.injEq, Prod.mk.injEq] at hlast'
      rw [← hlast'.1] at hfresh
      exact absurd hfresh (Nat.not_le_of_lt hlate)
    rw [cached_cacheAt, lastSet_of_getLast? hlast, Option.or_eq_none_iff] at hnone
    exact hnone
  · intro h
    refine ⟨fun i kid key hkid _ hnot => ?_, fun i kid key hkid hok T jwk hgone hlate => ?_⟩
    · rw [performs_contacts_iff] at hnot
      obtain ⟨key', hk⟩ := Option.ne_none_iff_exists'.1 hnot
      exact h.fresh_of_cached hkid hk
    · have hout := call_outcome lib env kid (cacheAt lib env kids i)
      generalize (call lib env kid (cacheAt lib env kids i)).1 = res at hout hok
      generalize (call lib env kid (cacheAt lib env kids i)).2 = w' at hout ⊢
      generalize fetchesOf lib env (keyFor lib kid).run (cacheAt lib env kids i) = fs at hout
      cases hout with
      | known hk n =>
          -- the current set was fetched after the withdrawal
          obtain ⟨f, set, hlast, hle⟩ := h.fresh_of_cached hkid hk
          obtain ⟨m, rfl, ha⟩ := exists_answer_of_mem_logAt (List.mem_of_getLast? hlast)
          rw [(cache_eq i).1, lastSet_of_getLast? hlast]
          have hafter : T + jwksTtl < env.clock m + jwksTtl := Nat.lt_of_lt_of_le hlate hle
          exact hgone m set (Nat.le_of_lt (Nat.lt_of_add_lt_add_right hafter)) ha
      | unavailable hk ha n => cases hok
      | fetched hk ha n =>
          have hstart : T < env.clock (cacheAt lib env kids i).steps :=
            Nat.lt_of_le_of_lt (Nat.le_add_right T jwksTtl) hlate
          have hmono := env.clock_mono (Nat.le_add_right (cacheAt lib env kids i).steps 2)
          exact hgone _ _ (Nat.le_of_lt (Nat.lt_of_lt_of_le hstart hmono)) ha

/-- **A key set is trusted past its time**: the second lookup of a key comes more than five minutes
after the fetch and is answered from the cache. -/
theorem not_freshKeys :
    ¬ ∀ (lib : JsonWebToken String String) (env : AuthEnv String) (kids : List String),
      FreshKeys lib env kids := by
  intro h
  obtain ⟨f, set, hlast, hle⟩ := (h (Sample.lib fun _ => none)
    (Sample.movingIdp ["k1"] ["k1"] 0) ["k1", "k1"]).fresh 1 "k1" "k1" rfl rfl
    (mt (performs_contacts_iff _ _ _ _).1 (by decide))
  have hfetch : f = 200 * second := by
    have := congrArg (Option.map Prod.fst) hlast
    exact (Option.some.inj this).symm
  rw [hfetch] at hle
  exact absurd hle (by decide)

/-! ### Rotation of keys -/

/-- A lookup of the id succeeds. -/
def Resolves (lib : JsonWebToken Jwk Key) (env : AuthEnv Jwk) (kid : String) (w : AuthWorld Jwk) :
    Prop := ∃ key, (call lib env kid w).1 = .ok key

theorem fromMap_congr (lib : JsonWebToken Jwk Key) {set set' : KeySet Jwk}
    (h : ∀ kid, set.lookup kid = set'.lookup kid) (kid : String) :
    fromMap lib set kid = fromMap lib set' kid := by
  rw [fromMap, fromMap, h]

theorem isSome_cached_iff {w : AuthWorld Jwk} : (cached lib w kid).isSome = true ↔
    (fromMap lib w.keys kid).isSome = true ∨ (fromMap lib w.previous kid).isSome = true := by
  rw [cached, Option.isSome_or, Bool.or_eq_true]

/-- An id that the cache resolves is looked up successfully. -/
theorem resolves_of_cached {w : AuthWorld Jwk} (h : (cached lib w kid).isSome = true) :
    Resolves lib env kid w := by
  obtain ⟨key, hk⟩ := Option.isSome_iff_exists.1 h
  have hout := call_outcome lib env kid w
  rw [Resolves]
  generalize (call lib env kid w).1 = res at hout ⊢
  generalize (call lib env kid w).2 = w' at hout
  generalize fetchesOf lib env (keyFor lib kid).run w = fs at hout
  cases hout with
  | known hk' n => exact ⟨_, rfl⟩
  | unavailable hk' ha n =>
      rw [hk] at hk'
      cases hk'
  | fetched hk' ha n =>
      rw [hk] at hk'
      cases hk'

/-- Calls are only counted up. -/
theorem steps_cacheAt_le (i : ℕ) :
    (cacheAt lib env kids i).steps ≤ (cacheAt lib env kids (i + 1)).steps := by
  cases hkid : kids[i]? with
  | none => rw [(cacheAt_of_getElem?_eq_none hkid).1]
  | some kid =>
      have hout := @outcome_at _ _ lib env kid kids i hkid
      generalize (call lib env kid (cacheAt lib env kids i)).1 = res at hout
      generalize cacheAt lib env kids (i + 1) = w' at hout ⊢
      generalize fetchesAt lib env kids i = fs at hout
      cases hout with
      | known hk n => exact Nat.le_add_right _ n
      | unavailable hk ha n => exact Nat.le_add_right _ n
      | fetched hk ha n => exact Nat.le_add_right _ n

theorem steps_cacheAt_mono : Monotone fun i => (cacheAt lib env kids i).steps :=
  monotone_nat_of_le_succ steps_cacheAt_le

/-- A lookup of an id that the cache does not resolve, when the identity provider answers. -/
theorem refresh_at {other : String} (hother : kids[i]? = some other)
    (hnone : cached lib (cacheAt lib env kids i) other = none) {set : KeySet Jwk}
    (ha : answer lib env ((cacheAt lib env kids i).steps + 2) = some set) :
    (cacheAt lib env kids (i + 1)).keys = set ∧
      (cacheAt lib env kids (i + 1)).previous = (cacheAt lib env kids i).keys := by
  have hout := @outcome_at _ _ lib env other kids i hother
  generalize (call lib env other (cacheAt lib env kids i)).1 = res at hout
  generalize cacheAt lib env kids (i + 1) = w' at hout ⊢
  generalize fetchesAt lib env kids i = fs at hout
  cases hout with
  | known hk n =>
      rw [hnone] at hk
      cases hk
  | unavailable hk ha' n =>
      rw [ha] at ha'
      cases ha'
  | fetched hk ha' n =>
      rw [ha, Option.some.injEq] at ha'
      exact ⟨ha'.symm, rfl⟩

/-- The fetches from the lookup at position `m` on and before the call `stop` are answered with the
key set `B`, or not at all. -/
def ServesFrom (lib : JsonWebToken Jwk Key) (env : AuthEnv Jwk) (kids : List String) (m stop : ℕ)
    (B : KeySet Jwk) : Prop :=
  ∀ n set, (cacheAt lib env kids m).steps ≤ n → n < stop → answer lib env n = some set →
    ∀ kid, set.lookup kid = B.lookup kid

/-- **No downtime for an id**: it is looked up successfully at every moment from the lookup at
position `m` on, as long as its fetch would come before the call `stop`. -/
def StaysResolvable (lib : JsonWebToken Jwk Key) (env : AuthEnv Jwk) (kids : List String)
    (m stop : ℕ) (kid : String) : Prop :=
  ∀ j, m ≤ j → (cacheAt lib env kids j).steps + 3 ≤ stop →
    Resolves lib env kid (cacheAt lib env kids j)

/-- Whenever an id is asked for that the cache does not resolve, and the identity provider answers,
the id `kid` is in the current set or in `B`. -/
def KeptByRefreshes (lib : JsonWebToken Jwk Key) (env : AuthEnv Jwk) (kids : List String)
    (m stop : ℕ) (B : KeySet Jwk) (kid : String) : Prop :=
  ∀ i other, m ≤ i → kids[i]? = some other → cached lib (cacheAt lib env kids i) other = none →
    (answer lib env ((cacheAt lib env kids i).steps + 2)).isSome = true →
    (cacheAt lib env kids (i + 1)).steps + 3 ≤ stop →
      (fromMap lib (cacheAt lib env kids i).keys kid).isSome = true ∨
        (fromMap lib B kid).isSome = true

/-- An id that every refresh finds in the current set or in the new one stays in the cache. -/
theorem isSome_cached_of_kept {m stop : ℕ} {B : KeySet Jwk} (hB : ServesFrom lib env kids m stop B)
    {kid : String} (hbefore : (cached lib (cacheAt lib env kids m) kid).isSome = true)
    (h : KeptByRefreshes lib env kids m stop B kid) {j : ℕ} (hj : m ≤ j)
    (hstop : (cacheAt lib env kids j).steps + 3 ≤ stop) :
    (cached lib (cacheAt lib env kids j) kid).isSome = true := by
  induction j, hj using Nat.le_induction with
  | base => exact hbefore
  | succ j hj ih =>
      have hle := @steps_cacheAt_le _ _ lib env kids j
      have hnow := ih (by omega)
      cases hother : kids[j]? with
      | none =>
          rw [(cacheAt_of_getElem?_eq_none hother).1]
          exact hnow
      | some other =>
          have hkeep := fun hnone hanswer => h j other hj hother hnone hanswer hstop
          have hfirst := @steps_cacheAt_mono _ _ lib env kids _ _ hj
          dsimp only at hfirst
          have hout := @outcome_at _ _ lib env other kids j hother
          generalize (call lib env other (cacheAt lib env kids j)).1 = res at hout
          generalize cacheAt lib env kids (j + 1) = w' at hout hstop hle ⊢
          generalize fetchesAt lib env kids j = fs at hout
          cases hout with
          | known hk n => exact hnow
          | unavailable hk ha n => exact hnow
          | @fetched set hk ha n =>
              have hset := fromMap_congr lib
                (hB _ set (Nat.le_add_right_of_le hfirst) (by omega) ha) kid
              rw [isSome_cached_iff]
              rcases hkeep hk (by rw [ha]; rfl) with hcur | hnew
              · exact .inr hcur
              · exact .inl (by rw [← hset] at hnew; exact hnew)

/-- **An id stays resolvable through a rotation exactly when** every refresh finds it in the current
set or in the new one. -/
theorem staysResolvable_iff (lib : JsonWebToken Jwk Key) (env : AuthEnv Jwk) {kids : List String}
    {m stop : ℕ} {B : KeySet Jwk} (hB : ServesFrom lib env kids m stop B) {kid : String}
    (hbefore : (cached lib (cacheAt lib env kids m) kid).isSome = true) :
    StaysResolvable lib env kids m stop kid ↔ KeptByRefreshes lib env kids m stop B kid := by
  constructor
  · intro h i other hi hother hnone hanswer hstop
    obtain ⟨key, hres⟩ := h (i + 1) (Nat.le_succ_of_le hi) hstop
    obtain ⟨set, ha⟩ := Option.isSome_iff_exists.1 hanswer
    have hle := @steps_cacheAt_le _ _ lib env kids i
    have hfirst := @steps_cacheAt_mono _ _ lib env kids _ _ hi
    have hnext := Nat.le_trans hfirst hle
    dsimp only at hfirst hnext
    obtain ⟨hkeys, hprevious⟩ := refresh_at hother hnone ha
    have hset := fromMap_congr lib
      (hB _ set (Nat.le_add_right_of_le hfirst) (by omega) ha) kid
    by_contra hlost
    rw [not_or, Bool.not_eq_true, Option.isSome_eq_false_iff, Option.isNone_iff_eq_none,
      Bool.not_eq_true, Option.isSome_eq_false_iff, Option.isNone_iff_eq_none] at hlost
    obtain ⟨hcur, hnew⟩ := hlost
    -- neither set has the id, and one more fetch brings the same set again
    have hout := call_outcome lib env kid (cacheAt lib env kids (i + 1))
    generalize (call lib env kid (cacheAt lib env kids (i + 1))).1 = res at hout hres
    generalize (call lib env kid (cacheAt lib env kids (i + 1))).2 = w' at hout
    generalize fetchesOf lib env (keyFor lib kid).run (cacheAt lib env kids (i + 1)) = fs at hout
    cases hout with
    | known hk n =>
        rw [cached, hkeys, hprevious, hset, hnew, hcur] at hk
        cases hk
    | unavailable hk ha' n => cases hres
    | @fetched set' hk ha' n =>
        have hset' := fromMap_congr lib
          (hB _ set' (Nat.le_add_right_of_le hnext) (by omega) ha') kid
        have hagain : cached lib (refreshed (cacheAt lib env kids (i + 1)) set'
            (env.clock ((cacheAt lib env kids (i + 1)).steps + 5))) kid = none := by
          rw [cached, refreshed]
          dsimp only
          rw [hset', hnew, hkeys, hset, hnew]
          rfl
        rw [hagain] at hres
        cases hres
  · intro h j hj hstop
    exact resolves_of_cached (isSome_cached_of_kept hB hbefore h hj hstop)

/-- What `Sample.movingIdp` answers from the move on. -/
theorem answer_movingIdp {lib : JsonWebToken String String} {A B : List String} {m n : ℕ}
    (hm : n ≤ m) {set : KeySet String} (ha : answer lib (Sample.movingIdp A B n) m = some set) :
    set = byKid lib B := by
  have hidp : (Sample.movingIdp A B n).idp m = some B := if_neg (Nat.not_lt_of_le hm)
  rw [answer, hidp, Option.bind_some] at ha
  split_ifs at ha
  exact (Option.some.inj ha).symm

/-- Key `k1` stays resolvable when the set with `k2` alone is fetched once. -/
theorem staysResolvable_one_refresh :
    let lib := Sample.lib fun _ => none
    let env := Sample.movingIdp ["k1"] ["k2"] 7
    StaysResolvable lib env ["k1", "k2"] 1 100 "k1" ↔
      KeptByRefreshes lib env ["k1", "k2"] 1 100 (byKid lib ["k2"]) "k1" :=
  staysResolvable_iff _ _ (fun n set hn _ ha kid => by rw [answer_movingIdp hn ha]) (by decide)

/-- **Key rotation can cause downtime**: the identity provider moves from `k1` to `k2`; a lookup of
`k2` and one of an unknown id fetch the new set twice, and `k1` is gone. -/
theorem not_staysResolvable :
    ¬ ∀ (lib : JsonWebToken String String) (env : AuthEnv String) (kids : List String) (m stop : ℕ)
      (A B : KeySet String), (∃ kid, A.lookup kid ≠ B.lookup kid) →
      (∀ n set, n < (cacheAt lib env kids m).steps → answer lib env n = some set →
        ∀ kid, set.lookup kid = A.lookup kid) →
      ServesFrom lib env kids m stop B → ∀ kid, (fromMap lib A kid).isSome = true →
      (cached lib (cacheAt lib env kids m) kid).isSome = true →
        StaysResolvable lib env kids m stop kid := by
  intro h
  have hserved : ∀ n set, n < 7 →
      answer (Sample.lib fun _ => none) (Sample.movingIdp ["k1"] ["k2"] 7) n = some set →
        ∀ kid, set.lookup kid = (byKid (Sample.lib fun _ => none) ["k1"]).lookup kid := by
    intro n set hn ha kid
    have hidp : (Sample.movingIdp ["k1"] ["k2"] 7).idp n = some ["k1"] := if_pos hn
    rw [answer, hidp, Option.bind_some] at ha
    split_ifs at ha
    rw [Option.some.inj ha]
  obtain ⟨key, hkey⟩ := h (Sample.lib fun _ => none) (Sample.movingIdp ["k1"] ["k2"] 7)
    ["k1", "k2", "k3"] 1 100 (byKid (Sample.lib fun _ => none) ["k1"])
    (byKid (Sample.lib fun _ => none) ["k2"]) ⟨"k1", by decide⟩ hserved
    (fun n set hn _ ha kid => by rw [answer_movingIdp hn ha]) "k1" (by decide) (by decide)
    3 (by decide) (by decide)
  have hlost : (call (Sample.lib fun _ => none) (Sample.movingIdp ["k1"] ["k2"] 7) "k1"
      (cacheAt (Sample.lib fun _ => none) (Sample.movingIdp ["k1"] ["k2"] 7)
        ["k1", "k2", "k3"] 3)).1 = .error .invalidToken := rfl
  rw [hlost] at hkey
  cases hkey

end Jwks

end SettingsService
