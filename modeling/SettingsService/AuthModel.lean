import Mathlib.Data.String.Basic

/-!
# The authenticated principal and entity ownership

The value objects of the `auth` context: tenants, users, the two roles, the `Authority` a request
runs under and the `Ownership` of a stored setting, with the read permission and the scope an
authority writes in.

Main definitions:

* `AuthError` — the error codes of the slice;
* `Authority`, `Ownership` — a principal, and who a setting belongs to;
* `Authority.canRead`, `Authority.canWrite` — the access check;
* `Authority.scopeOwnership` — the ownership an authority writes under;
* `Ownership.userText` — `COALESCE("user", '')` of the column an ownership is stored in.

Main results:

* `Authority.canWrite_scopeOwnership` — an authority may write in its own scope.
-/

set_option relaxedAutoImplicit false
set_option autoImplicit false

namespace SettingsService

/-- The error codes of the `auth` slice. -/
inductive AuthError
  | missingCredentials
  | invalidToken
  | expired
  | invalidIssuer
  | invalidAudience
  | revoked
  | rateLimited
  | unavailable
  | internal
  deriving DecidableEq

/-- The tenant a principal or an entity belongs to. -/
@[ext] structure Tenant where
  /-- The text of the tenant. -/
  asStr : String
  deriving DecidableEq

/-- A user within a tenant. -/
@[ext] structure UserId where
  /-- The text of the user id. -/
  asStr : String
  deriving DecidableEq

/-- The role of a principal. -/
inductive Role
  | user
  | admin
  deriving DecidableEq

/-- Entity ownership; no user means tenant-scoped. -/
@[ext] structure Ownership where
  /-- The tenant. -/
  tenant : Tenant
  /-- The user, if the entity is user-scoped. -/
  user : Option UserId
  deriving DecidableEq

namespace Ownership

/-- The ownership of a tenant-scoped entity. -/
def forTenant (tenant : Tenant) : Ownership := ⟨tenant, none⟩

/-- The ownership of a user-scoped entity. -/
def forUser (tenant : Tenant) (user : UserId) : Ownership := ⟨tenant, some user⟩

/-- Is the entity tenant-scoped? -/
def isTenantScoped (o : Ownership) : Bool := o.user.isNone

/-- The text bound to the `"user"` column. -/
def userColumn (o : Ownership) : Option String := o.user.map UserId.asStr

/-- The same with `COALESCE(…, '')` applied. -/
def userText (o : Ownership) : String := o.userColumn.getD ""

@[simp] theorem tenant_forTenant (t : Tenant) : (forTenant t).tenant = t := rfl

@[simp] theorem tenant_forUser (t : Tenant) (u : UserId) : (forUser t u).tenant = t := rfl

@[simp] theorem userText_forTenant (t : Tenant) : (forTenant t).userText = "" := rfl

@[simp] theorem userText_forUser (t : Tenant) (u : UserId) : (forUser t u).userText = u.asStr := rfl

@[simp] theorem getD_userColumn (o : Ownership) : o.userColumn.getD "" = o.userText := rfl

end Ownership

/-- The authenticated principal. -/
structure Authority where
  /-- The tenant. -/
  tenant : Tenant
  /-- The user. -/
  user : UserId
  /-- The role. -/
  role : Role
  deriving DecidableEq

namespace Authority

/-- `can_read`: the tenant must match; a user sees its own entries, an admin its own entries and
the tenant-scoped ones. -/
def canRead (a : Authority) (o : Ownership) : Bool :=
  if a.tenant ≠ o.tenant then false
  else match a.role with
    | .admin => o.user.isNone || o.user == some a.user
    | .user => o.user == some a.user

/-- `can_write`: documented to be the scope of reads. -/
def canWrite (a : Authority) (o : Ownership) : Bool := a.canRead o

/-- `scope_ownership`: an admin writes tenant-scoped, a user its own entries. -/
def scopeOwnership (a : Authority) : Ownership :=
  match a.role with
  | .admin => .forTenant a.tenant
  | .user => .forUser a.tenant a.user

@[simp] theorem tenant_scopeOwnership (a : Authority) : a.scopeOwnership.tenant = a.tenant := by
  rw [scopeOwnership]; cases a.role <;> rfl

/-- An authority may write in its own scope. -/
theorem canWrite_scopeOwnership (a : Authority) : a.canWrite a.scopeOwnership = true := by
  rw [canWrite, canRead, tenant_scopeOwnership, if_neg (by simp), scopeOwnership]
  cases a.role <;> simp [Ownership.forTenant, Ownership.forUser]

end Authority

end SettingsService
