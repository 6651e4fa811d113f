import SettingsService.AuthService

/-!
# The revocation store, one call at a time

A lookup that finds an expired entry removes it, and a revocation replaces the entry that is there,
whatever is left of it.  None of this shows in the answers: they are those of a store that never
removes an entry.

Main definitions:

* `RevocationCall`, `RevocationCall.exec` — the calls of the store, and what they do;
* `RevocationCall.execKeeping` — the same on a store that never removes an entry;
* `serve` — calls at their times, one after another, with their answers;
* `LatestRevoke` — the latest revocation of an id.

Main results:

* `prunes_serve` — the store is the record of the revocations, less some that have expired;
* `pruning_unobservable` — **removing expired entries is unobservable**.
-/

set_option relaxedAutoImplicit false
set_option autoImplicit false

namespace SettingsService

open Deadlines (record live Prunes LastGiven)

/-! ### The calls -/

/-- `revoke`, at the time `now`. -/
def InMemoryRevocationStore.revoke (store : InMemoryRevocationStore) (jti : String) (ttl : ℕ)
    (now : Instant) : InMemoryRevocationStore :=
  store.insert jti (if ttl = 0 then now else now + ttl)

/-- The program of `revoke` reads the clock and does this to the store. -/
example {Jwk : Type} (env : AuthEnv Jwk) (w : AuthWorld Jwk) (jti : String) (ttl : ℕ) :
    (ExceptT.run (AuthService.revoke jti ttl)).run (AuthOp.exec env) w =
      (.ok (), { w.tick.tick with revoked := w.revoked.revoke jti ttl (env.clock w.steps) }) :=
  rfl

/-- A call of the store. -/
inductive RevocationCall
  | revoke (jti : String) (ttl : ℕ)
  | isRevoked (jti : String)
  deriving DecidableEq

/-- A call and the time the clock shows to it. -/
abbrev TimedCall : Type := RevocationCall × Instant

namespace RevocationCall

/-- What a call answers, a revocation nothing, and what it does to the store. -/
def exec :
    RevocationCall → Instant → InMemoryRevocationStore → Option Bool × InMemoryRevocationStore
  | revoke jti ttl, now, store => (none, store.revoke jti ttl now)
  | isRevoked jti, now, store => ((store.isRevoked jti now).1, (store.isRevoked jti now).2)

/-- What a call answers and does when no entry is ever removed. -/
def execKeeping :
    RevocationCall → Instant → InMemoryRevocationStore → Option Bool × InMemoryRevocationStore
  | revoke jti ttl, now, store => (none, store.revoke jti ttl now)
  | isRevoked jti, now, store => ((store.isRevoked jti now).1, store)

end RevocationCall

/-- Calls at their times, one after another: the store at the end, and the answers. -/
def serve (exec : RevocationCall → Instant → InMemoryRevocationStore →
    Option Bool × InMemoryRevocationStore) (store : InMemoryRevocationStore)
    (calls : List TimedCall) : InMemoryRevocationStore × List (Option Bool) :=
  calls.foldl (fun s call =>
    let r := exec call.1 call.2 s.1
    (r.2, s.2 ++ [r.1])) (store, [])

/-- The latest revocation of the id was for `ttl`, at the time `s`. -/
def LatestRevoke (calls : List TimedCall) (jti : String) (ttl : ℕ) (s : Instant) : Prop :=
  ∃ m, calls[m]? = some (RevocationCall.revoke jti ttl, s) ∧
    ∀ (m' ttl' : ℕ) (s' : Instant), m < m' → calls[m']? ≠ some (RevocationCall.revoke jti ttl', s')

/-! ### One call after another -/

section Serve

variable (exec : RevocationCall → Instant → InMemoryRevocationStore →
  Option Bool × InMemoryRevocationStore)

theorem serve_snoc (store : InMemoryRevocationStore) (calls : List TimedCall) (call : TimedCall) :
    serve exec store (calls ++ [call]) =
      ((exec call.1 call.2 (serve exec store calls).1).2,
        (serve exec store calls).2 ++ [(exec call.1 call.2 (serve exec store calls).1).1]) := by
  rw [serve, List.foldl_append]
  rfl

theorem serve_append (store : InMemoryRevocationStore) (calls calls' : List TimedCall) :
    serve exec store (calls ++ calls') =
      ((serve exec (serve exec store calls).1 calls').1,
        (serve exec store calls).2 ++ (serve exec (serve exec store calls).1 calls').2) := by
  induction calls' using List.reverseRecOn with
  | nil => rw [List.append_nil]; simp [serve]
  | append_singleton calls' call ih =>
      rw [← List.append_assoc, serve_snoc, serve_snoc, ih, List.append_assoc]

theorem serve_length (store : InMemoryRevocationStore) (calls : List TimedCall) :
    (serve exec store calls).2.length = calls.length := by
  induction calls using List.reverseRecOn with
  | nil => rfl
  | append_singleton calls call ih => rw [serve_snoc]; simp [ih]

end Serve

/-! ### The store and the record of the revocations -/

/-- The id a call revokes, and until when. -/
def TimedCall.gives : TimedCall → Option (String × Instant)
  | (.revoke jti ttl, now) => some (jti, now + ttl)
  | (.isRevoked _, _) => none

/-- A revocation gives its id the deadline, of no lifetime too. -/
theorem lookup_revoke (store : InMemoryRevocationStore) (jti : String) (ttl : ℕ) (now : Instant) :
    (fun j => (store.revoke jti ttl now).lookup j) =
      Function.update (fun j => store.lookup j) jti (some (now + ttl)) := by
  have hexpiry : (if ttl = 0 then now else now + ttl) = now + ttl := by
    split_ifs with h
    · rw [h, Nat.add_zero]
    · rfl
  rw [InMemoryRevocationStore.revoke, hexpiry, lookup_insert_eq]

/-- The store that removes nothing is the record. -/
theorem lookup_serve_keeping (calls : List TimedCall) :
    (fun j => (serve RevocationCall.execKeeping ∅ calls).1.lookup j) =
      record TimedCall.gives calls := by
  induction calls using List.reverseRecOn with
  | nil => rfl
  | append_singleton calls call ih =>
      obtain ⟨call, now⟩ := call
      rw [serve_snoc, Deadlines.record_snoc, ← ih]
      cases call with
      | revoke jti ttl => exact lookup_revoke ..
      | isRevoked jti => rfl

/-- **The store is the record of the revocations**, less some that have expired. -/
theorem prunes_serve {calls : List TimedCall} (hsorted : calls.Pairwise fun c d => c.2 ≤ d.2)
    {now : Instant} (hnow : ∀ c ∈ calls, c.2 ≤ now) :
    Prunes (fun j => (serve RevocationCall.exec ∅ calls).1.lookup j)
      (record TimedCall.gives calls) now := by
  induction calls using List.reverseRecOn generalizing now with
  | nil => exact Prunes.refl _ _
  | append_singleton calls call ih =>
      obtain ⟨call, t⟩ := call
      obtain ⟨hsorted, -, ht⟩ := List.pairwise_append.1 hsorted
      have hpast : Prunes (fun j => (serve RevocationCall.exec ∅ calls).1.lookup j)
          (record TimedCall.gives calls) t := ih hsorted fun c hc => ht c hc (call, t) (by simp)
      rw [serve_snoc, Deadlines.record_snoc]
      refine Prunes.mono ?_ (hnow (call, t) (by simp))
      cases call with
      | revoke jti ttl =>
          simp only [RevocationCall.exec, lookup_revoke, TimedCall.gives]
          exact hpast.insert jti (t + ttl)
      | isRevoked jti => exact prunes_isRevoked hpast jti

/-- What the record holds for an id is the deadline of its latest revocation. -/
theorem record_gives_iff {calls : List TimedCall} {jti : String} {expiry : Instant} :
    record TimedCall.gives calls jti = some expiry ↔
      ∃ ttl s, LatestRevoke calls jti ttl s ∧ expiry = s + ttl := by
  have hgives : ∀ {e : TimedCall} {d : Instant}, TimedCall.gives e = some (jti, d) →
      ∃ ttl s, e = (RevocationCall.revoke jti ttl, s) ∧ d = s + ttl := by
    intro e d he
    obtain ⟨call, s⟩ := e
    cases call with
    | revoke jti' ttl =>
        simp only [TimedCall.gives, Option.some.injEq, Prod.mk.injEq] at he
        obtain ⟨rfl, rfl⟩ := he
        exact ⟨ttl, s, rfl, rfl⟩
    | isRevoked jti' => cases he
  rw [Deadlines.record_eq_some_iff]
  constructor
  · rintro ⟨m, ⟨e, hm, he⟩, hlast⟩
    obtain ⟨ttl, s, rfl, rfl⟩ := hgives he
    exact ⟨ttl, s, ⟨m, hm, fun m' ttl' s' hlt hm' => hlast m' _ _ hlt hm' rfl⟩, rfl⟩
  · rintro ⟨ttl, s, ⟨m, hm, hlast⟩, rfl⟩
    refine ⟨m, ⟨_, hm, rfl⟩, fun m' e d hlt hm' he => ?_⟩
    obtain ⟨ttl', s', rfl, rfl⟩ := hgives he
    exact hlast m' ttl' s' hlt hm'

/-! ### The answers -/

/-- A lookup answers for the latest revocation of the id. -/
theorem isRevoked_serve_iff {calls : List TimedCall} (hsorted : calls.Pairwise fun c d => c.2 ≤ d.2)
    {now : Instant} (hnow : ∀ c ∈ calls, c.2 ≤ now) (jti : String) :
    ((serve RevocationCall.exec ∅ calls).1.isRevoked jti now).1 = true ↔
      ∃ ttl s, LatestRevoke calls jti ttl s ∧ now < s + ttl := by
  rw [isRevoked_fst, (prunes_serve hsorted hnow).live_eq, Deadlines.live_eq_true_iff]
  constructor
  · rintro ⟨expiry, hexpiry, hlt⟩
    obtain ⟨ttl, s, hlatest, rfl⟩ := record_gives_iff.1 hexpiry
    exact ⟨ttl, s, hlatest, hlt⟩
  · rintro ⟨ttl, s, hlatest, hlt⟩
    exact ⟨s + ttl, record_gives_iff.2 ⟨ttl, s, hlatest, rfl⟩, hlt⟩

/-- **The answers are those of a store that never removes an entry.** -/
theorem answers_eq_keeping {calls : List TimedCall}
    (hsorted : calls.Pairwise fun c d => c.2 ≤ d.2) :
    (serve RevocationCall.exec ∅ calls).2 = (serve RevocationCall.execKeeping ∅ calls).2 := by
  induction calls using List.reverseRecOn with
  | nil => rfl
  | append_singleton calls call ih =>
      obtain ⟨call, t⟩ := call
      obtain ⟨hsorted, -, ht⟩ := List.pairwise_append.1 hsorted
      have hprunes := prunes_serve hsorted fun c hc => ht c hc (call, t) (by simp)
      rw [serve_snoc, serve_snoc, ih hsorted]
      cases call with
      | revoke jti ttl => rfl
      | isRevoked jti =>
          simp only [RevocationCall.exec, RevocationCall.execKeeping, isRevoked_fst]
          rw [hprunes.live_eq, lookup_serve_keeping]

/-- A store that never removes an entry does not notice a lookup. -/
theorem eraseIdx_keeping (before after : List TimedCall) (jti : String) (t : Instant) :
    (serve RevocationCall.execKeeping ∅ (before ++ (.isRevoked jti, t) :: after)).2.eraseIdx
        before.length =
      (serve RevocationCall.execKeeping ∅ (before ++ after)).2 := by
  rw [← List.singleton_append, ← List.append_assoc, serve_append, serve_append _ _ before after,
    serve_snoc, List.append_assoc]
  conv_lhs => rw [← serve_length RevocationCall.execKeeping ∅ before]
  rw [List.eraseIdx_append_of_length_le (Nat.le_refl _), Nat.sub_self]
  rfl

/-- A revocation is there until it expires. -/
theorem lookup_serve {calls : List TimedCall} (hsorted : calls.Pairwise fun c d => c.2 ≤ d.2)
    {now : Instant} (hnow : ∀ c ∈ calls, c.2 ≤ now) {jti : String} {ttl : ℕ} {s : Instant}
    (hlatest : LatestRevoke calls jti ttl s) (hlt : now < s + ttl) :
    (serve RevocationCall.exec ∅ calls).1.lookup jti = some (s + ttl) := by
  have hrecord := record_gives_iff.2 ⟨ttl, s, hlatest, rfl⟩
  rcases prunes_serve hsorted hnow jti with hsame | ⟨-, hlive⟩
  · exact hsame.trans hrecord
  · have := Deadlines.live_eq_true_iff.2 ⟨s + ttl, hrecord, hlt⟩
    rw [hlive] at this
    cases this

/-- **Removing expired entries is unobservable.**  Whatever the calls, at times that do not go back:
the answers are those of a store that never removes an entry; a lookup answers whether the latest
earlier revocation of its id is still to expire; the answers to the other calls are the same
without the lookup; and a revocation that is still to expire is there. -/
theorem pruning_unobservable (calls : List TimedCall)
    (hsorted : calls.Pairwise fun c d => c.2 ≤ d.2) :
    (serve RevocationCall.exec ∅ calls).2 = (serve RevocationCall.execKeeping ∅ calls).2 ∧
      (∀ before jti t after, calls = before ++ (.isRevoked jti, t) :: after →
        ∃ revoked, (serve RevocationCall.exec ∅ calls).2[before.length]? = some (some revoked) ∧
          (revoked = true ↔ ∃ ttl s, LatestRevoke before jti ttl s ∧ t < s + ttl)) ∧
      (∀ before jti t after, calls = before ++ (.isRevoked jti, t) :: after →
        (serve RevocationCall.exec ∅ (before ++ after)).2 =
          (serve RevocationCall.exec ∅ calls).2.eraseIdx before.length) ∧
      ∀ before after jti ttl s t, calls = before ++ after → LatestRevoke before jti ttl s →
        (∀ c ∈ before, c.2 ≤ t) → t < s + ttl →
        (serve RevocationCall.exec ∅ before).1.lookup jti = some (s + ttl) := by
  refine ⟨answers_eq_keeping hsorted, ?_, ?_, ?_⟩
  · rintro before jti t after rfl
    obtain ⟨hbefore, -, hcross⟩ := List.pairwise_append.1 hsorted
    refine ⟨_, ?_, isRevoked_serve_iff hbefore (fun c hc => hcross c hc (.isRevoked jti, t)
      (by simp)) jti⟩
    rw [← List.singleton_append, ← List.append_assoc, serve_append, serve_snoc,
      List.getElem?_append_left (by simp [serve_length]),
      List.getElem?_append_right (serve_length ..).le, serve_length, Nat.sub_self]
    rfl
  · rintro before jti t after rfl
    rw [answers_eq_keeping hsorted, eraseIdx_keeping]
    refine answers_eq_keeping (hsorted.sublist ?_)
    exact (List.sublist_cons_self _ after).append_left before
  · rintro before after jti ttl s t rfl hlatest ht hlt
    exact lookup_serve (List.pairwise_append.1 hsorted).1 ht hlatest hlt

/-- A second revocation shortens the first, a lookup removes the entry when it has expired, and
another id is not touched. -/
theorem pruning_unobservable_again :
    let calls : List TimedCall := [(.revoke "a" 60, 0), (.isRevoked "a", 10), (.revoke "a" 5, 20),
      (.isRevoked "a", 30), (.revoke "b" 60, 30), (.isRevoked "a", 40), (.isRevoked "b", 40)]
    (serve RevocationCall.exec ∅ calls).2 =
        [none, some true, none, some false, none, some false, some true] ∧
      (serve RevocationCall.exec ∅ calls).2 = (serve RevocationCall.execKeeping ∅ calls).2 ∧
      (serve RevocationCall.exec ∅ calls).1.lookup "a" = none ∧
      (serve RevocationCall.exec ∅ (calls.eraseIdx 3)).2 =
        (serve RevocationCall.exec ∅ calls).2.eraseIdx 3 := by
  have h := pruning_unobservable [(.revoke "a" 60, 0), (.isRevoked "a", 10), (.revoke "a" 5, 20),
    (.isRevoked "a", 30), (.revoke "b" 60, 30), (.isRevoked "a", 40), (.isRevoked "b", 40)]
    (by decide)
  exact ⟨by decide, h.1, by decide,
    h.2.2.1 [(.revoke "a" 60, 0), (.isRevoked "a", 10), (.revoke "a" 5, 20)] "a" 30 _ rfl⟩

end SettingsService
