import Mathlib
import MailServer.Lib.Reach
import MailServer.Lib.Fallible

/-! # Role permissions and access tokens

`build_role_permissions` walks the roles a role inherits, depth first, with a
stack of the role-id lists still to finish and the set of roles already fetched.
It unions the enabled and the disabled permissions of every role it reaches, and
stops the whole walk as soon as it reaches the built-in `ADMIN` role.
`build_access_token` unions the permissions of the principal's roles with the
principal's own, and removes the disabled ones from the enabled ones.

The walk always ends: each step either fetches a role not fetched before or
shortens the lists still to walk (`buildLoop`'s termination measure). The early
exit makes the result depend on the order of a `Roles` list: the disabled
permissions of the roles listed after `ADMIN` are never read.
-/

namespace MailServer.Common.Roles

/-- The bit positions a `Permissions` bitset holds. -/
abbrev Permissions := Finset ℕ

/-- `RolePermissions`. -/
structure RolePermissions where
  enabled : Permissions
  disabled : Permissions
  deriving DecidableEq

/-- `RolePermissions::default`. -/
def RolePermissions.default : RolePermissions := ⟨∅, ∅⟩

/-- `RolePermissions::union`. -/
def RolePermissions.union (self other : RolePermissions) : RolePermissions :=
  ⟨self.enabled ∪ other.enabled, self.disabled ∪ other.disabled⟩

/-- `RolePermissions::finalize`: the enabled permissions without the disabled ones. -/
def RolePermissions.finalize (self : RolePermissions) : Permissions :=
  self.enabled \ self.disabled

/-- `ROLE_ADMIN`, `ROLE_TENANT_ADMIN` and `ROLE_USER`. -/
def roleAdmin : UInt32 := 0xFFFFFFFF
def roleTenantAdmin : UInt32 := 0xFFFFFFFE
def roleUser : UInt32 := 0xFFFFFFFD

/-- The fields of a principal the permissions are built from: its enabled and disabled
permission ids and its role ids, as `iter_int` yields them, its tenant and its quota. -/
structure Principal where
  enabledPermissions : List ℕ
  disabledPermissions : List ℕ
  roles : List ℕ
  tenant : Option UInt32
  quota : Option ℕ
  deriving DecidableEq

/-- The error of a role that is not in the directory. -/
inductive Error
  | unauthorized (details : String) (id : UInt32)
  deriving DecidableEq, Repr

/-- `TenantInfo`. -/
structure TenantInfo where
  id : UInt32
  quota : ℕ
  deriving DecidableEq

/-- The fields of `AccessToken` that `build_access_token` reads from the roles and the tenant. -/
structure AccessToken where
  permissions : Permissions
  tenant : Option TenantInfo

/-- The role permissions cache (`inner.data.permissions`). -/
abbrev Cache := UInt32 → Option RolePermissions

def Cache.insert (cache : Cache) (roleId : UInt32) (permissions : RolePermissions) : Cache :=
  Function.update cache roleId (some permissions)

/-- What the role permissions depend on: `Permission::COUNT`, the enabled sets of the
built-in `USER` and `TENANT_ADMIN` roles, and the directory's principals by id. -/
structure Server where
  count : ℕ
  userPermissions : Permissions
  tenantAdminPermissions : Permissions
  principal : UInt32 → Option Principal

namespace Server

variable (server : Server)

/-- `Permissions::all()`: every bit of the `Bitset`, whose `COUNT.div_ceil(size_of::<usize>())`
words of 64 bits hold more than `COUNT` bits. -/
def allPermissions : Permissions := Finset.range ((server.count + 7) / 8 * 64)

def userRole : RolePermissions := ⟨server.userPermissions, ∅⟩
def adminRole : RolePermissions := ⟨server.allPermissions, ∅⟩
def tenantAdminRole : RolePermissions := ⟨server.tenantAdminPermissions, ∅⟩

/-- The permissions of a principal's own fields below `Permission::COUNT`. -/
def ownPermissions (principal : Principal) : RolePermissions :=
  ⟨(principal.enabledPermissions.filter (· < server.count)).toFinset,
    (principal.disabledPermissions.filter (· < server.count)).toFinset⟩

/-- The loop of `build_role_permissions`: the role ids still to read from the current list,
the lists suspended below it, the roles fetched so far, the permissions gathered and the
cache. A role with parent roles suspends the rest of its list and walks its parents; a
leaf role is cached with its own permissions. -/
def buildLoop (roleIds : List ℕ) (stack : List (List ℕ)) (fetched : Finset UInt32)
    (ret : RolePermissions) (cache : Cache) : Except Error (RolePermissions × Cache) :=
  match roleIds with
  | roleId :: rest =>
    let roleId := UInt32.ofNat roleId
    if roleId ∈ fetched then buildLoop rest stack fetched ret cache
    else
      let fetched' := insert roleId fetched
      if roleId = roleUser then buildLoop rest stack fetched' (ret.union server.userRole) cache
      -- `break 'outer`
      else if roleId = roleAdmin then .ok (ret.union server.adminRole, cache)
      else if roleId = roleTenantAdmin then
        buildLoop rest stack fetched' (ret.union server.tenantAdminRole) cache
      else
        match cache roleId with
        | some rolePermissions => buildLoop rest stack fetched' (ret.union rolePermissions) cache
        | none =>
          match server.principal roleId with
          | none => .error (.unauthorized "Principal not found while building role permissions" roleId)
          | some principal =>
            let rolePermissions := server.ownPermissions principal
            if principal.roles ≠ [] then
              buildLoop principal.roles (rest :: stack) fetched' (ret.union rolePermissions) cache
            else buildLoop rest stack fetched' (ret.union rolePermissions) (cache.insert roleId rolePermissions)
  | [] =>
    match stack with
    | prev :: stack => buildLoop prev stack fetched ret cache
    | [] => .ok (ret, cache)
termination_by (Fintype.card UInt32 - fetched.card, roleIds.length + (stack.map (·.length + 1)).sum)
decreasing_by
  all_goals first
    | (apply Prod.Lex.right; simp only [List.length_cons, List.map_cons, List.sum_cons]; omega)
    | (apply Prod.Lex.left
       -- a role not fetched before: one more of the finitely many `u32` ids is fetched
       have hle := Finset.card_le_univ (insert roleId fetched)
       rw [Finset.card_insert_of_notMem ‹roleId ∉ fetched›] at hle ⊢
       omega)

/-- `build_role_permissions`: the walk from one role, whose result is then cached. -/
def buildRolePermissions (roleId : UInt32) (cache : Cache) : Except Error (RolePermissions × Cache) := do
  let (ret, cache) ← server.buildLoop [roleId.toNat] [] ∅ .default cache
  pure (ret, cache.insert roleId ret)

/-- `get_role_permissions`. -/
def getRolePermissions (roleId : UInt32) (cache : Cache) : Except Error (RolePermissions × Cache) :=
  if roleId = roleUser then .ok (server.userRole, cache)
  else if roleId = roleAdmin then .ok (server.adminRole, cache)
  else if roleId = roleTenantAdmin then .ok (server.tenantAdminRole, cache)
  else
    match cache roleId with
    | some rolePermissions => .ok (rolePermissions, cache)
    | none => server.buildRolePermissions roleId cache

/-- `build_access_token`, with the cache it leaves; `enterprise` is `is_enterprise_edition()`.
The tenant's quota is read from the tenant's principal. -/
def buildAccessToken (enterprise : Bool) (principal : Principal) (cache : Cache) :
    Except Error (AccessToken × Cache) := do
  let (rolePermissions, cache) ← principal.roles.foldlM (fun (acc : RolePermissions × Cache) roleId => do
      let (permissions, cache) ← server.getRolePermissions (UInt32.ofNat roleId) acc.2
      pure (acc.1.union permissions, cache)) (.default, cache)
  let permissions := (rolePermissions.union (server.ownPermissions principal)).finalize
  match enterprise, principal.tenant with
  | true, some tenantId => do
    let (tenantPermissions, cache) ← server.getRolePermissions tenantId cache
    match server.principal tenantId with
    | none => .error (.unauthorized "Tenant not found" tenantId)
    | some tenant => pure (⟨permissions ∩ tenantPermissions.enabled, some ⟨tenantId, tenant.quota.getD 0⟩⟩, cache)
  | _, _ => pure (⟨permissions, none⟩, cache)

end Server

/-! ## What the walk computes

The roles form a graph: a built-in role has no parent roles, any other role has the
`Roles` of its principal. Each role brings its own permissions (`rolePermissions`), and
what `build_role_permissions` should return for a role is the union of what every role it
reaches brings (`Gathers`). The walk is a depth-first search whose pending roles are the
rest of the current list and the suspended lists (`pendingRoles`); its state is described
by a `Frontier` of `Lib.Reach` together with the union gathered so far (`LoopInv`). A role
found in the cache is absorbed with everything it reaches, which is why the cache must
describe every role it holds (`CacheSound`): a leaf role is cached with its own
permissions, the root with the union of the walk. The walk from a role that reaches
`ADMIN` stops early, so the cache is only required to be right for the roles that do not.
-/

open MailServer.Lib.Graph MailServer.Lib.Fallible

namespace Server

variable (server : Server)

/-- The permissions a role brings by itself: the fixed sets of the built-in roles, and the
own fields of any other role's principal. -/
def rolePermissions (roleId : UInt32) : RolePermissions :=
  if roleId = roleUser then server.userRole
  else if roleId = roleAdmin then server.adminRole
  else if roleId = roleTenantAdmin then server.tenantAdminRole
  else
    match server.principal roleId with
    | some principal => server.ownPermissions principal
    | none => .default

/-- The roles a role inherits: none for a built-in role, the `Roles` of any other. -/
def parentRoles (roleId : UInt32) : List UInt32 :=
  if roleId = roleUser ∨ roleId = roleAdmin ∨ roleId = roleTenantAdmin then []
  else
    match server.principal roleId with
    | some principal => principal.roles.map UInt32.ofNat
    | none => []

/-- The roles reachable from `roleId`, itself included. -/
def reachable (roleId : UInt32) : Set UInt32 := {d | Reach server.parentRoles roleId d}

/-- `ret` is the union of what the roles of `S` bring. -/
def Gathers (ret : RolePermissions) (S : Set UInt32) : Prop :=
  ∀ p, (p ∈ ret.enabled ↔ ∃ d ∈ S, p ∈ (server.rolePermissions d).enabled) ∧
    (p ∈ ret.disabled ↔ ∃ d ∈ S, p ∈ (server.rolePermissions d).disabled)

/-- No role reachable from `roleId` is `ADMIN`, at which the walk stops. -/
def AdminFree (roleId : UInt32) : Prop := ∀ d ∈ server.reachable roleId, d ≠ roleAdmin

/-- Every cached entry of a role that does not reach `ADMIN` is the union over the roles it
reaches. -/
def CacheSound (cache : Cache) : Prop :=
  ∀ roleId v, cache roleId = some v → server.AdminFree roleId →
    server.Gathers v (server.reachable roleId)

/-- A role that is not built in and has no principal in the directory. -/
def Missing (roleId : UInt32) : Prop :=
  roleId ≠ roleUser ∧ roleId ≠ roleAdmin ∧ roleId ≠ roleTenantAdmin ∧ server.principal roleId = none

/-- The outcome of a computation that reads roles: on success `post` holds of its result,
and its only error names a role of `T` missing from the directory. -/
def Resolves {α : Type} (T : Set UInt32) (post : α → Prop) : Except Error α → Prop
  | .ok a => post a
  | .error (.unauthorized details roleId) =>
    details = "Principal not found while building role permissions" ∧ roleId ∈ T ∧
      server.Missing roleId

/-- The outcome of `build_access_token`: it resolves as a walk over the roles it reads, or it
fails with `Tenant not found` on a tenant missing from the directory. -/
def TokenResolves (T : Set UInt32) (post : AccessToken × Cache → Prop) (tenant : Option UInt32)
    (x : Except Error (AccessToken × Cache)) : Prop :=
  server.Resolves T post x ∨
    ∃ tenantId, tenant = some tenantId ∧ server.principal tenantId = none ∧
      x = .error (.unauthorized "Tenant not found" tenantId)

/-- The tenant a token of the principal carries on the enterprise edition: the principal's
tenant, with the quota of the tenant's principal. -/
def tenantInfo (enterprise : Bool) (principal : Principal) : Option TenantInfo :=
  if enterprise then
    principal.tenant.map fun tenantId => ⟨tenantId, ((server.principal tenantId).bind (·.quota)).getD 0⟩
  else none

/-- What the walk from `start` must leave: the union over the roles `start` reaches, and a
sound cache. -/
def Walked (start : UInt32) (r : RolePermissions × Cache) : Prop :=
  server.Gathers r.1 (server.reachable start) ∧ server.CacheSound r.2

variable {server}

section Graph

variable {roleId d : UInt32} {principal : Principal}

theorem parentRoles_of_builtin (h : roleId = roleUser ∨ roleId = roleAdmin ∨ roleId = roleTenantAdmin) :
    server.parentRoles roleId = [] := by
  simp [parentRoles, h]

theorem parentRoles_of_principal (hu : roleId ≠ roleUser) (ha : roleId ≠ roleAdmin)
    (ht : roleId ≠ roleTenantAdmin) (hp : server.principal roleId = some principal) :
    server.parentRoles roleId = principal.roles.map UInt32.ofNat := by
  simp [parentRoles, hu, ha, ht, hp]

theorem rolePermissions_user : server.rolePermissions roleUser = server.userRole := by
  simp [rolePermissions]

theorem rolePermissions_tenantAdmin :
    server.rolePermissions roleTenantAdmin = server.tenantAdminRole := by
  have hu : roleTenantAdmin ≠ roleUser := by decide
  have ha : roleTenantAdmin ≠ roleAdmin := by decide
  simp [rolePermissions, hu, ha]

theorem rolePermissions_of_principal (hu : roleId ≠ roleUser) (ha : roleId ≠ roleAdmin)
    (ht : roleId ≠ roleTenantAdmin) (hp : server.principal roleId = some principal) :
    server.rolePermissions roleId = server.ownPermissions principal := by
  simp [rolePermissions, hu, ha, ht, hp]

theorem mem_reachable_self (roleId : UInt32) : roleId ∈ server.reachable roleId := Reach.refl _

theorem reachable_subset (hd : d ∈ server.reachable roleId) :
    server.reachable d ⊆ server.reachable roleId := fun _ he => Reach.trans hd he

theorem reachable_of_nil (h : server.parentRoles roleId = []) : server.reachable roleId = {roleId} :=
  Set.ext fun _ => ⟨Reach.eq_of_nil h, fun he => he ▸ mem_reachable_self _⟩

theorem AdminFree.of_mem (h : server.AdminFree roleId) (hd : d ∈ server.reachable roleId) :
    server.AdminFree d := fun e he => h e (reachable_subset hd he)

theorem AdminFree.ne_admin (h : server.AdminFree roleId) : roleId ≠ roleAdmin :=
  h roleId (mem_reachable_self _)

end Graph

section Gathers

variable {ret v : RolePermissions} {S T : Set UInt32}

theorem gathers_default : server.Gathers .default ∅ := by
  simp [Gathers, RolePermissions.default]

theorem gathers_single (d : UInt32) : server.Gathers (server.rolePermissions d) {d} := by
  simp [Gathers]

theorem Gathers.union (h : server.Gathers ret S) (g : server.Gathers v T) :
    server.Gathers (ret.union v) (S ∪ T) := by
  intro p
  simp only [RolePermissions.union, Finset.mem_union, (h p).1, (h p).2, (g p).1, (g p).2,
    Set.mem_union, or_and_right, exists_or, and_self]

theorem Gathers.congr_set (h : server.Gathers ret S) (hST : S = T) : server.Gathers ret T :=
  hST ▸ h

end Gathers

section Cache

variable {cache : Cache} {roleId : UInt32} {v : RolePermissions}

theorem cacheSound_empty : server.CacheSound fun _ => none := by
  simp [CacheSound]

theorem CacheSound.insert (h : server.CacheSound cache)
    (hv : server.AdminFree roleId → server.Gathers v (server.reachable roleId)) :
    server.CacheSound (cache.insert roleId v) := by
  intro r w hr hfree
  by_cases hrr : r = roleId
  · subst hrr
    simp only [Cache.insert, Function.update_self, Option.some.injEq] at hr
    exact hr ▸ hv hfree
  · simp only [Cache.insert, Function.update_of_ne hrr] at hr
    exact h r w hr hfree

theorem CacheSound.insert_leaf (h : server.CacheSound cache) (hnil : server.parentRoles roleId = []) :
    server.CacheSound (cache.insert roleId (server.rolePermissions roleId)) :=
  h.insert fun _ => (gathers_single roleId).congr_set (reachable_of_nil hnil).symm

end Cache

section Resolves

variable {α β : Type} {T T' : Set UInt32} {post : α → Prop} {post' : β → Prop}

theorem Resolves.mono {x : Except Error α} {q : α → Prop} (h : server.Resolves T post x)
    (hT : T ⊆ T') (hpost : ∀ a, post a → q a) : server.Resolves T' q x := by
  rcases x with ⟨details, roleId⟩ | a
  · exact ⟨h.1, hT h.2.1, h.2.2⟩
  · exact hpost a h

/-- The bind rule: a computation that resolves, followed by one that resolves from every
result of it. -/
theorem Resolves.bind {x : Except Error α} {f : α → Except Error β} (h : server.Resolves T post x)
    (hf : ∀ a, post a → server.Resolves T post' (f a)) : server.Resolves T post' (x >>= f) := by
  rcases x with ⟨details, roleId⟩ | a
  · exact h
  · exact hf a h

theorem resolves_pure {a : α} (h : post a) : server.Resolves T post (pure a) := h

theorem Resolves.bind_token {x : Except Error α} {f : α → Except Error (AccessToken × Cache)}
    {q : AccessToken × Cache → Prop} {tenant : Option UInt32} (h : server.Resolves T post x)
    (hf : ∀ a, post a → server.TokenResolves T q tenant (f a)) :
    server.TokenResolves T q tenant (x >>= f) := by
  rcases x with ⟨details, roleId⟩ | a
  · exact .inl h
  · exact hf a h

end Resolves

/-- The roles still to walk: the rest of the current list and the suspended lists, as `u32`. -/
def pendingRoles (roleIds : List ℕ) (stack : List (List ℕ)) : List UInt32 :=
  (roleIds ++ stack.flatten).map UInt32.ofNat

@[simp]
theorem pendingRoles_cons (roleId : ℕ) (rest : List ℕ) (stack : List (List ℕ)) :
    pendingRoles (roleId :: rest) stack = UInt32.ofNat roleId :: pendingRoles rest stack := by
  simp [pendingRoles]

@[simp]
theorem pendingRoles_nil_cons (prev : List ℕ) (stack : List (List ℕ)) :
    pendingRoles [] (prev :: stack) = pendingRoles prev stack := by
  simp [pendingRoles]

theorem pendingRoles_suspend (roles rest : List ℕ) (stack : List (List ℕ)) :
    pendingRoles roles (rest :: stack) = roles.map UInt32.ofNat ++ pendingRoles rest stack := by
  simp [pendingRoles]

/-- The state of the walk from `start`: a frontier over the role graph whose visited roles are
gathered in `ret` and include every fetched role, with a sound cache. -/
structure LoopInv (server : Server) (start : UInt32) (done : Set UInt32) (pending : List UInt32)
    (fetched : Finset UInt32) (ret : RolePermissions) (cache : Cache) : Prop where
  frontier : Frontier server.parentRoles start done pending
  gathers : server.Gathers ret done
  fetched_done : ∀ x ∈ fetched, x ∈ done
  cache : server.CacheSound cache

namespace LoopInv

variable {start x : UInt32} {done : Set UInt32} {rest : List UInt32} {fetched : Finset UInt32}
  {ret v : RolePermissions} {cache : Cache}

theorem init (start : UInt32) (hcache : server.CacheSound cache) :
    LoopInv server start ∅ [start] ∅ .default cache :=
  ⟨Frontier.init start, gathers_default, by simp, hcache⟩

theorem skip (h : LoopInv server start done (x :: rest) fetched ret cache) (hx : x ∈ fetched) :
    LoopInv server start done rest fetched ret cache :=
  ⟨h.frontier.skip (h.fetched_done x hx), h.gathers, h.fetched_done, h.cache⟩

/-- A role read from the directory or built in: its own permissions are gathered and its
parent roles become pending. -/
theorem visit (h : LoopInv server start done (x :: rest) fetched ret cache)
    {parents : List UInt32} (hp : server.parentRoles x = parents) (hv : server.rolePermissions x = v) :
    LoopInv server start (insert x done) (parents ++ rest) (insert x fetched) (ret.union v) cache where
  frontier := hp ▸ h.frontier.visit
  gathers := by
    rw [Set.insert_eq, Set.union_comm, ← hv]
    exact h.gathers.union (gathers_single x)
  fetched_done y hy := by
    rcases Finset.mem_insert.mp hy with rfl | hy
    · exact Set.mem_insert _ _
    · exact Set.mem_insert_of_mem _ (h.fetched_done y hy)
  cache := h.cache

theorem absorb (h : LoopInv server start done (x :: rest) fetched ret cache)
    (hfree : server.AdminFree start) (hx : cache x = some v) :
    LoopInv server start (done ∪ server.reachable x) rest (insert x fetched) (ret.union v) cache where
  frontier := h.frontier.absorb
  gathers := h.gathers.union (h.cache x v hx (hfree.of_mem h.frontier.reach_head))
  fetched_done y hy := by
    rcases Finset.mem_insert.mp hy with rfl | hy
    · exact .inr (mem_reachable_self _)
    · exact .inl (h.fetched_done y hy)
  cache := h.cache

theorem insert_leaf {pending : List UInt32} (h : LoopInv server start done pending fetched ret cache)
    (hnil : server.parentRoles x = []) :
    LoopInv server start done pending fetched ret (cache.insert x (server.rolePermissions x)) :=
  ⟨h.frontier, h.gathers, h.fetched_done, h.cache.insert_leaf hnil⟩

theorem finish (h : LoopInv server start done [] fetched ret cache) :
    server.Walked start (ret, cache) :=
  ⟨h.gathers.congr_set (Set.ext (h.frontier.exhausted)), h.cache⟩

end LoopInv

variable {start : UInt32}

/-- The walk from `start`, from any state its invariant describes, returns the union over
every role `start` reaches with a sound cache, or fails on a reachable role that is missing
from the directory. -/
theorem buildLoop_resolves (hfree : server.AdminFree start) {roleIds : List ℕ}
    {stack : List (List ℕ)} {fetched : Finset UInt32} {ret : RolePermissions} {cache : Cache}
    {done : Set UInt32} (h : LoopInv server start done (pendingRoles roleIds stack) fetched ret cache) :
    server.Resolves (server.reachable start) (server.Walked start)
      (server.buildLoop roleIds stack fetched ret cache) := by
  fun_induction server.buildLoop roleIds stack fetched ret cache generalizing done with
  | case1 stack fetched ret cache q rest x hx =>
    rename_i ih
    rw [pendingRoles_cons] at h
    exact ih (h.skip hx)
  | case2 stack fetched ret cache q rest x hx fetched' hu =>
    rename_i ih
    rw [pendingRoles_cons] at h
    exact ih (h.visit (parentRoles_of_builtin (.inl hu)) ((congrArg server.rolePermissions hu).trans rolePermissions_user))
  | case3 stack fetched ret cache q rest x hx hu =>
    rename_i ha
    rw [pendingRoles_cons] at h
    exact absurd ha (hfree.of_mem h.frontier.reach_head).ne_admin
  | case4 stack fetched ret cache q rest x hx fetched' hu ha ht =>
    rename_i ih
    rw [pendingRoles_cons] at h
    exact ih (h.visit (parentRoles_of_builtin (.inr (.inr ht))) ((congrArg server.rolePermissions ht).trans rolePermissions_tenantAdmin))
  | case5 stack fetched ret cache q rest x hx fetched' hu ha ht v hc =>
    rename_i ih
    rw [pendingRoles_cons] at h
    exact ih (h.absorb hfree hc)
  | case6 stack fetched ret cache q rest x hx hu ha ht hc =>
    rename_i hp
    rw [pendingRoles_cons] at h
    exact ⟨rfl, h.frontier.reach_head, hu, ha, ht, hp⟩
  | case7 stack fetched ret cache q rest x hx fetched' hu ha ht hc principal hp v hroles =>
    rename_i ih
    rw [pendingRoles_cons] at h
    apply ih
    rw [pendingRoles_suspend]
    exact h.visit (parentRoles_of_principal hu ha ht hp) (rolePermissions_of_principal hu ha ht hp)
  | case8 stack fetched ret cache q rest x hx fetched' hu ha ht hc principal hp v hroles =>
    rename_i ih
    rw [pendingRoles_cons] at h
    have hnil : server.parentRoles (UInt32.ofNat q) = [] := by
      rw [parentRoles_of_principal hu ha ht hp]
      simpa using hroles
    have hv := rolePermissions_of_principal hu ha ht hp
    have hleaf := (h.visit hnil hv).insert_leaf hnil
    rw [hv] at hleaf
    exact ih hleaf
  | case9 fetched ret cache prev stack =>
    rename_i ih
    rw [pendingRoles_nil_cons] at h
    exact ih h
  | case10 fetched ret cache => exact h.finish

/-- The walk's only write to the cache is a leaf role with its own permissions, so a walk
that succeeds keeps the cache sound, also one cut short at `ADMIN`. -/
theorem buildLoop_cacheSound {roleIds : List ℕ} {stack : List (List ℕ)} {fetched : Finset UInt32}
    {ret : RolePermissions} {cache : Cache} {r : RolePermissions × Cache}
    (hcache : server.CacheSound cache) (h : server.buildLoop roleIds stack fetched ret cache = .ok r) :
    server.CacheSound r.2 := by
  fun_induction server.buildLoop roleIds stack fetched ret cache with
  | case3 =>
    cases h
    exact hcache
  | case6 => cases h
  | case8 stack fetched ret cache q rest x hx fetched' hu ha ht hc principal hp v hroles =>
    rename_i ih
    have hnil : server.parentRoles (UInt32.ofNat q) = [] := by
      rw [parentRoles_of_principal hu ha ht hp]
      simpa using hroles
    have hleaf := hcache.insert_leaf hnil
    rw [rolePermissions_of_principal hu ha ht hp] at hleaf
    exact ih hleaf h
  | case10 =>
    cases h
    exact hcache
  | _ =>
    rename_i ih
    exact ih hcache h

theorem walked_of_nil {d : UInt32} {cache : Cache} (hnil : server.parentRoles d = [])
    (hcache : server.CacheSound cache) : server.Walked d (server.rolePermissions d, cache) :=
  ⟨(gathers_single d).congr_set (reachable_of_nil hnil).symm, hcache⟩

variable {roleId : UInt32} {cache : Cache}

theorem pendingRoles_start (roleId : UInt32) : pendingRoles [roleId.toNat] [] = [roleId] := by
  simp [pendingRoles]

theorem buildRolePermissions_resolves (hfree : server.AdminFree roleId)
    (hcache : server.CacheSound cache) :
    server.Resolves (server.reachable roleId) (server.Walked roleId)
      (server.buildRolePermissions roleId cache) := by
  have hinit := LoopInv.init roleId hcache
  rw [← pendingRoles_start] at hinit
  unfold buildRolePermissions
  refine (buildLoop_resolves hfree hinit).bind fun r hr => ?_
  rcases r with ⟨ret, cache'⟩
  exact resolves_pure ⟨hr.1, hr.2.insert fun _ => hr.1⟩

theorem buildRolePermissions_cacheSound {r : RolePermissions × Cache}
    (hcache : server.CacheSound cache) (h : server.buildRolePermissions roleId cache = .ok r) :
    server.CacheSound r.2 := by
  unfold buildRolePermissions at h
  obtain ⟨⟨ret, cache'⟩, hloop, h⟩ := bind_eq_ok.mp h
  cases h
  refine (buildLoop_cacheSound hcache hloop).insert fun hfree => ?_
  have hinit := LoopInv.init roleId hcache
  rw [← pendingRoles_start] at hinit
  have hres := buildLoop_resolves hfree hinit
  rw [hloop] at hres
  exact hres.1

theorem getRolePermissions_resolves (hfree : server.AdminFree roleId)
    (hcache : server.CacheSound cache) :
    server.Resolves (server.reachable roleId) (server.Walked roleId)
      (server.getRolePermissions roleId cache) := by
  unfold getRolePermissions
  split_ifs with hu ha ht
  · subst hu
    have hw := walked_of_nil (parentRoles_of_builtin (.inl rfl)) hcache
    rw [rolePermissions_user] at hw
    exact hw
  · exact absurd ha hfree.ne_admin
  · subst ht
    have hw := walked_of_nil (parentRoles_of_builtin (.inr (.inr rfl))) hcache
    rw [rolePermissions_tenantAdmin] at hw
    exact hw
  · rcases hc : cache roleId with _ | v
    · simpa only [hc] using buildRolePermissions_resolves hfree hcache
    · exact ⟨hcache roleId v hc hfree, hcache⟩

theorem getRolePermissions_cacheSound {r : RolePermissions × Cache}
    (hcache : server.CacheSound cache) (h : server.getRolePermissions roleId cache = .ok r) :
    server.CacheSound r.2 := by
  unfold getRolePermissions at h
  split_ifs at h
  · cases h
    exact hcache
  · cases h
    exact hcache
  · cases h
    exact hcache
  · rcases hc : cache roleId with _ | v
    · simp only [hc] at h
      exact buildRolePermissions_cacheSound hcache h
    · simp only [hc, Except.ok.injEq] at h
      exact h ▸ hcache

/-- The roles reachable from any role of a `Roles` list. -/
def inheritedRoles (server : Server) (roles : List ℕ) : Set UInt32 :=
  {d | ∃ r ∈ roles, d ∈ server.reachable (UInt32.ofNat r)}

theorem inheritedRoles_nil : server.inheritedRoles [] = ∅ := by
  simp [inheritedRoles]

theorem inheritedRoles_cons (r : ℕ) (roles : List ℕ) :
    server.inheritedRoles (r :: roles) =
      server.reachable (UInt32.ofNat r) ∪ server.inheritedRoles roles := by
  ext d
  simp [inheritedRoles]

/-- A fold over a `Roles` list whose every step adds what its role reaches gathers
everything the list reaches. -/
theorem foldlM_resolves {f : RolePermissions × Cache → ℕ → Except Error (RolePermissions × Cache)}
    (roles : List ℕ)
    (hf : ∀ acc roleId (S : Set UInt32), roleId ∈ roles → server.Gathers acc.1 S →
      server.CacheSound acc.2 →
      server.Resolves (server.reachable (UInt32.ofNat roleId))
        (fun r => server.Gathers r.1 (S ∪ server.reachable (UInt32.ofNat roleId)) ∧
          server.CacheSound r.2) (f acc roleId))
    (acc : RolePermissions × Cache) (S : Set UInt32) (hacc : server.Gathers acc.1 S)
    (hcache : server.CacheSound acc.2) :
    server.Resolves (server.inheritedRoles roles)
      (fun r => server.Gathers r.1 (S ∪ server.inheritedRoles roles) ∧ server.CacheSound r.2)
      (roles.foldlM f acc) := by
  induction roles generalizing acc S with
  | nil =>
    rw [inheritedRoles_nil, Set.union_empty]
    exact resolves_pure ⟨hacc, hcache⟩
  | cons r roles ih =>
    rw [List.foldlM_cons, inheritedRoles_cons]
    refine Resolves.bind ((hf acc r S List.mem_cons_self hacc hcache).mono Set.subset_union_left
      fun _ h => h) fun a ha => ?_
    have hrest := ih (fun acc roleId S hr => hf acc roleId S (List.mem_cons_of_mem r hr)) a _ ha.1 ha.2
    refine hrest.mono Set.subset_union_right fun b hb => ⟨?_, hb.2⟩
    rw [← Set.union_assoc]
    exact hb.1

/-- The roles reachable from the tenant, where the tenant limits the permissions. -/
def tenantRoles (server : Server) (enterprise : Bool) (principal : Principal) : Set UInt32 :=
  {d | ∃ tenantId, enterprise = true ∧ principal.tenant = some tenantId ∧ d ∈ server.reachable tenantId}

/-- What `build_access_token` should grant: a permission enabled by the principal or a role
it inherits and disabled by none of them, and enabled for the tenant where a tenant limits
the principal. -/
def Grants (server : Server) (enterprise : Bool) (principal : Principal) (permissions : Permissions) :
    Prop :=
  ∀ p, p ∈ permissions ↔
    ((p ∈ (server.ownPermissions principal).enabled ∨
        ∃ d ∈ server.inheritedRoles principal.roles, p ∈ (server.rolePermissions d).enabled) ∧
      ¬(p ∈ (server.ownPermissions principal).disabled ∨
        ∃ d ∈ server.inheritedRoles principal.roles, p ∈ (server.rolePermissions d).disabled)) ∧
    ∀ tenantId, enterprise = true → principal.tenant = some tenantId →
      ∃ d ∈ server.reachable tenantId, p ∈ (server.rolePermissions d).enabled

theorem mem_finalize_union {v w : RolePermissions} {S : Set UInt32} (hv : server.Gathers v S)
    (p : ℕ) : p ∈ (v.union w).finalize ↔
      (p ∈ w.enabled ∨ ∃ d ∈ S, p ∈ (server.rolePermissions d).enabled) ∧
        ¬(p ∈ w.disabled ∨ ∃ d ∈ S, p ∈ (server.rolePermissions d).disabled) := by
  simp only [RolePermissions.finalize, RolePermissions.union, Finset.mem_sdiff, Finset.mem_union,
    (hv p).1, (hv p).2, or_comm]

theorem accumulateRole_resolves (acc : RolePermissions × Cache) (roleId : ℕ) (S : Set UInt32)
    (hfree : server.AdminFree (UInt32.ofNat roleId)) (hacc : server.Gathers acc.1 S)
    (hcache : server.CacheSound acc.2) :
    server.Resolves (server.reachable (UInt32.ofNat roleId))
      (fun r => server.Gathers r.1 (S ∪ server.reachable (UInt32.ofNat roleId)) ∧ server.CacheSound r.2)
      (do
        let (permissions, cache) ← server.getRolePermissions (UInt32.ofNat roleId) acc.2
        pure (acc.1.union permissions, cache)) := by
  refine (getRolePermissions_resolves hfree hcache).bind fun r hr => ?_
  rcases r with ⟨permissions, cache'⟩
  exact resolves_pure ⟨hacc.union hr.1, hr.2⟩

/-- `build_access_token` grants the permissions enabled by the principal or by any role it
reaches and disabled by none of them, limited to the tenant's, carries the tenant with its quota
and leaves a sound cache; or it fails on a reachable role missing from the directory, or on a
tenant missing from it. -/
theorem buildAccessToken_resolves {enterprise : Bool} {principal : Principal}
    (hroles : ∀ r ∈ principal.roles, server.AdminFree (UInt32.ofNat r))
    (htenant : ∀ tenantId, enterprise = true → principal.tenant = some tenantId →
      server.AdminFree tenantId)
    (hcache : server.CacheSound cache) :
    server.TokenResolves (server.inheritedRoles principal.roles ∪ server.tenantRoles enterprise principal)
      (fun r => server.Grants enterprise principal r.1.permissions ∧
        r.1.tenant = server.tenantInfo enterprise principal ∧ server.CacheSound r.2)
      (if enterprise then principal.tenant else none)
      (server.buildAccessToken enterprise principal cache) := by
  unfold buildAccessToken
  have hfold := foldlM_resolves principal.roles
    (fun acc roleId S hr hacc hc => accumulateRole_resolves acc roleId S (hroles roleId hr) hacc hc)
    (.default, cache) ∅ gathers_default hcache
  rw [Set.empty_union] at hfold
  refine (hfold.mono Set.subset_union_left fun _ h => h).bind_token fun r hr => ?_
  rcases r with ⟨v, cache'⟩
  have hmem := mem_finalize_union (w := server.ownPermissions principal) hr.1
  cases enterprise <;> rcases ht : principal.tenant with _ | tenantId
  all_goals dsimp only
  · exact .inl (resolves_pure ⟨fun p => by simp [hmem], by simp [tenantInfo], hr.2⟩)
  · exact .inl (resolves_pure ⟨fun p => by simp [hmem], by simp [tenantInfo], hr.2⟩)
  · exact .inl (resolves_pure ⟨fun p => by simp [hmem, ht], by simp [tenantInfo, ht], hr.2⟩)
  · -- the tenant's own walk limits the permissions, then the tenant's principal is read
    refine ((getRolePermissions_resolves (htenant tenantId rfl ht) hr.2).mono
      (fun d hd => Or.inr ⟨tenantId, rfl, ht, hd⟩) fun _ h => h).bind_token fun r hr' => ?_
    rcases r with ⟨tenantPermissions, cache''⟩
    dsimp only
    cases hp : server.principal tenantId with
    | none => exact .inr ⟨tenantId, by simp, hp, rfl⟩
    | some tenant =>
      exact .inl (resolves_pure ⟨fun p => by simp [hmem, ht, (hr'.1 p).1],
        by simp [tenantInfo, ht, hp], hr'.2⟩)

theorem buildAccessToken_cacheSound {enterprise : Bool} {principal : Principal}
    {r : AccessToken × Cache} (hcache : server.CacheSound cache)
    (h : server.buildAccessToken enterprise principal cache = .ok r) : server.CacheSound r.2 := by
  unfold buildAccessToken at h
  obtain ⟨⟨v, cache'⟩, hfold, h⟩ := bind_eq_ok.mp h
  have hsound : server.CacheSound cache' := by
    refine foldlM_ok_invariant (P := fun acc : RolePermissions × Cache => server.CacheSound acc.2)
      (fun acc roleId acc' hacc hok => ?_) principal.roles _ _ hcache hfold
    obtain ⟨⟨w, c⟩, hg, hok⟩ := bind_eq_ok.mp hok
    cases hok
    exact getRolePermissions_cacheSound (r := (w, c)) hacc hg
  cases enterprise <;> rcases ht : principal.tenant with _ | tenantId <;> simp only [ht] at h
  · cases h
    exact hsound
  · cases h
    exact hsound
  · cases h
    exact hsound
  · obtain ⟨⟨w, c⟩, hg, h⟩ := bind_eq_ok.mp h
    cases hp : server.principal tenantId <;> simp only [hp, reduceCtorEq] at h
    cases h
    exact getRolePermissions_cacheSound (r := (w, c)) hsound hg

/-- One successful call on the directory that reads roles, with the cache before and after. -/
inductive Call (server : Server) : Cache → Cache → Prop
  | role {roleId : UInt32} {cache : Cache} {r : RolePermissions × Cache} :
      server.getRolePermissions roleId cache = .ok r → Call server cache r.2
  | token {enterprise : Bool} {principal : Principal} {cache : Cache} {r : AccessToken × Cache} :
      server.buildAccessToken enterprise principal cache = .ok r → Call server cache r.2

theorem cacheSound_of_calls (h : Relation.ReflTransGen (Call server) (fun _ => none) cache) :
    server.CacheSound cache := by
  induction h with
  | refl => exact cacheSound_empty
  | tail _ hcall ih =>
    cases hcall with
    | role hok => exact getRolePermissions_cacheSound ih hok
    | token hok => exact buildAccessToken_cacheSound ih hok

/-- A set of roles closed under parent roles and without `ADMIN` holds only roles that reach
no `ADMIN`. -/
theorem adminFree_of_closed {S : Set UInt32} (hr : roleId ∈ S)
    (hclosed : ∀ x ∈ S, ∀ y ∈ server.parentRoles x, y ∈ S) (hadmin : roleAdmin ∉ S) :
    server.AdminFree roleId :=
  fun _ hd hda => hadmin (hda ▸ Reach.mem_of_closed hclosed hr hd)

/-- After any history of calls on the directory from an empty cache, `get_role_permissions`
for a role that reaches no `ADMIN` returns the union of the permissions of every role it
reaches and leaves a sound cache, or fails on a reachable role missing from the directory. -/
theorem getRolePermissions_after_calls
    (hcalls : Relation.ReflTransGen (Call server) (fun _ => none) cache)
    (hfree : server.AdminFree roleId) :
    server.Resolves (server.reachable roleId) (server.Walked roleId)
      (server.getRolePermissions roleId cache) :=
  getRolePermissions_resolves hfree (cacheSound_of_calls hcalls)

/-- After any history of calls on the directory from an empty cache, `build_access_token`
for a principal none of whose roles (nor its tenant) reaches `ADMIN` grants exactly the
permissions enabled by the principal or a role it reaches and disabled by none of them,
limited to the tenant's, and carries the tenant with its quota; or it fails on a reachable
role missing from the directory, or with `Tenant not found` on a tenant missing from it. -/
theorem buildAccessToken_after_calls {enterprise : Bool} {principal : Principal}
    (hcalls : Relation.ReflTransGen (Call server) (fun _ => none) cache)
    (hroles : ∀ r ∈ principal.roles, server.AdminFree (UInt32.ofNat r))
    (htenant : ∀ tenantId, enterprise = true → principal.tenant = some tenantId →
      server.AdminFree tenantId) :
    server.TokenResolves (server.inheritedRoles principal.roles ∪ server.tenantRoles enterprise principal)
      (fun r => server.Grants enterprise principal r.1.permissions ∧
        r.1.tenant = server.tenantInfo enterprise principal ∧ server.CacheSound r.2)
      (if enterprise then principal.tenant else none)
      (server.buildAccessToken enterprise principal cache) :=
  buildAccessToken_resolves hroles htenant (cacheSound_of_calls hcalls)

end Server

/-- A directory with two roles that inherit each other and the built-in `USER` role, and a
tenant that enables permissions 2 to 5. -/
def exampleServer : Server where
  count := 8
  userPermissions := {0}
  tenantAdminPermissions := {1}
  principal roleId :=
    if roleId = 10 then some ⟨[2, 4], [3], [11], none, none⟩
    else if roleId = 11 then some ⟨[3, 5], [], [10, 4294967293], none, none⟩
    else if roleId = 20 then some ⟨[2, 3, 4, 5], [], [], none, some 1000⟩
    else none

/-- A principal with both roles, in either order, in the tenant. -/
def examplePrincipal : Principal := ⟨[6], [4], [11, 10], some 20, none⟩

theorem exampleServer_adminFree {r : ℕ} (hr : r ∈ examplePrincipal.roles) :
    exampleServer.AdminFree (UInt32.ofNat r) := by
  have h10 : exampleServer.parentRoles 10 = [11] := by decide
  have h11 : exampleServer.parentRoles 11 = [10, roleUser] := by decide
  have hu : exampleServer.parentRoles roleUser = [] := by decide
  refine Server.adminFree_of_closed (S := {10, 11, roleUser}) ?_ ?_ ?_
  · simp only [examplePrincipal, List.mem_cons, List.not_mem_nil, or_false] at hr
    rcases hr with rfl | rfl
    · exact .inr (.inl rfl)
    · exact .inl rfl
  · intro x hx y hy
    rcases hx with rfl | rfl | rfl
    · rw [h10, List.mem_singleton] at hy
      exact .inr (.inl hy)
    · rw [h11] at hy
      simp only [List.mem_cons, List.not_mem_nil, or_false] at hy
      rcases hy with rfl | rfl
      · exact .inl rfl
      · exact .inr (.inr rfl)
    · rw [hu] at hy
      cases hy
  · simp only [Set.mem_insert_iff, Set.mem_singleton_iff]
    decide

theorem getRolePermissions_after_calls_example :
    exampleServer.Resolves (exampleServer.reachable 10) (exampleServer.Walked 10)
      (exampleServer.getRolePermissions 10 fun _ => none) :=
  Server.getRolePermissions_after_calls .refl (exampleServer_adminFree (r := 10) (by decide))

theorem buildAccessToken_after_calls_example :
    exampleServer.TokenResolves
      (exampleServer.inheritedRoles examplePrincipal.roles ∪
        exampleServer.tenantRoles true examplePrincipal)
      (fun r => exampleServer.Grants true examplePrincipal r.1.permissions ∧
        r.1.tenant = exampleServer.tenantInfo true examplePrincipal ∧ exampleServer.CacheSound r.2)
      (if true then examplePrincipal.tenant else none)
      (exampleServer.buildAccessToken true examplePrincipal fun _ => none) :=
  Server.buildAccessToken_after_calls .refl (fun _ hr => exampleServer_adminFree hr) fun tenantId _ ht => by
    have htenant : tenantId = 20 := by simpa [examplePrincipal] using ht.symm
    have h20 : exampleServer.parentRoles 20 = [] := by decide
    subst htenant
    exact Server.adminFree_of_closed (S := {20}) rfl
      (fun x hx y hy => by rw [Set.mem_singleton_iff.mp hx, h20] at hy; cases hy) (by decide)

end MailServer.Common.Roles
