import Mathlib
import MailServer.Lib.Fallible

/-! # Membership updates of the internal directory

The internal directory stores each membership twice: `MemberOf { principal_id,
member_of }`, whose value is the type byte of the group, list or role, and
`Members { principal_id, has_member }`. `update_principal` loads the principal's
`member_of` ids once, for groups, lists and roles together, and threads them
through the changes, adding both keys of a pair or clearing both in one batch.

The kind of a membership is only kept in the type byte, and a `Set` on one field
compares its new list with the whole `member_of` vector: setting the roles clears the
principal's groups and lists.
-/

namespace MailServer.Directory.Manage

open MailServer.Lib.Fallible

/-- `directory::Type`. -/
inductive PType
  | individual
  | group
  | resource
  | location
  | list
  | other
  | domain
  | tenant
  | role
  | apiKey
  | oauthClient
  deriving DecidableEq, Repr

/-- `typ as u8`. -/
def PType.toU8 : PType → UInt8
  | .individual => 0
  | .group => 1
  | .resource => 2
  | .location => 3
  | .list => 5
  | .other => 6
  | .domain => 7
  | .tenant => 8
  | .role => 9
  | .apiKey => 10
  | .oauthClient => 11

/-- `Type::from_u8`. -/
def PType.fromU8 (value : UInt8) : PType :=
  match value.toNat with
  | 0 => .individual
  | 1 => .group
  | 2 => .resource
  | 3 => .location
  | 4 => .individual
  | 5 => .list
  | 6 => .other
  | 7 => .domain
  | 8 => .tenant
  | 9 => .role
  | 10 => .apiKey
  | 11 => .oauthClient
  | _ => .other

/-- `Type::as_str`. -/
def PType.asStr : PType → String
  | .individual => "Individual"
  | .group => "Group"
  | .resource => "Resource"
  | .location => "Location"
  | .tenant => "Tenant"
  | .list => "List"
  | .other => "Other"
  | .role => "Role"
  | .domain => "Domain"
  | .apiKey => "API Key"
  | .oauthClient => "OAuth Client"

/-- The membership fields of `PrincipalField`. -/
inductive Field
  | memberOf
  | members
  | roles
  | lists
  deriving DecidableEq, Repr

/-- `PrincipalField::as_str`. -/
def Field.asStr : Field → String
  | .memberOf => "memberOf"
  | .members => "members"
  | .roles => "roles"
  | .lists => "lists"

/-- `PrincipalAction`. -/
inductive Action
  | set
  | addItem
  | removeItem
  deriving DecidableEq, Repr

/-- `PrincipalValue`, for the values a membership change carries. -/
inductive Value
  | string (value : String)
  | stringList (values : List String)
  deriving DecidableEq, Repr

/-- `PrincipalUpdate`. -/
structure Change where
  action : Action
  field : Field
  value : Value
  deriving DecidableEq, Repr

/-- `PrincipalInfo`: what a name maps to in `NameToId`. -/
structure PrincipalInfo where
  id : UInt32
  typ : PType
  tenant : Option UInt32
  deriving DecidableEq, Repr

/-- The errors of `update_principal`: `not_found(key)` and `error(details, reason)`. -/
inductive Error
  | notFound (key : String)
  | error (details : String) (reason : Option String)
  deriving DecidableEq, Repr

/-- `PrincipalInfo::has_tenant_access` (enterprise build). -/
def PrincipalInfo.hasTenantAccess (p : PrincipalInfo) (tenantId : Option UInt32) : Bool :=
  match tenantId with
  | none => true
  | some tenantId => p.tenant == some tenantId || (p.typ == .tenant && p.id == tenantId)

/-- `ROLE_ADMIN`, `ROLE_TENANT_ADMIN` and `ROLE_USER`. -/
def roleAdmin : UInt32 := 0xFFFFFFFF
def roleTenantAdmin : UInt32 := 0xFFFFFFFE
def roleUser : UInt32 := 0xFFFFFFFD

/-- `PrincipalField::map_internal_role_name`. -/
def mapInternalRoleName (field : Field) (name : String) : Option UInt32 :=
  match field, name with
  | .roles, "admin" => some roleAdmin
  | .roles, "tenant-admin" => some roleTenantAdmin
  | .roles, "user" => some roleUser
  | _, _ => none

/-- `PrincipalField::map_internal_roles`. -/
def mapInternalRoles (field : Field) (name : String) : Option PrincipalInfo :=
  (mapInternalRoleName field name).map fun roleId => ⟨roleId, .role, none⟩

/-- `{:?}` of a string without characters to escape. -/
def debugStr (s : String) : String := "\"" ++ s ++ "\""

/-- `{:?}` of a `PrincipalValue`. -/
def Value.debug : Value → String
  | .string value => "String(" ++ debugStr value ++ ")"
  | .stringList values => "StringList([" ++ ", ".intercalate (values.map debugStr) ++ "])"

/-- `validate_member_of`. -/
def validateMemberOf (field : Field) (typ memberType : PType) (memberName : String) :
    Except Error Unit :=
  let expectedTypes : List PType :=
    match field, typ with
    | .memberOf, .individual => [.group, .individual]
    | .memberOf, .group => [.group]
    | .lists, .individual | .lists, .group => [.list]
    | .roles, .individual | .roles, .tenant | .roles, .role => [.role]
    | _, _ => []
  if expectedTypes.isEmpty || !expectedTypes.contains memberType then
    .error (.error ("Invalid " ++ field.asStr ++ " value")
      (some (if !expectedTypes.isEmpty then
          "Principal " ++ debugStr memberName ++ " is not a " ++
            ", ".intercalate (expectedTypes.map PType.asStr) ++ "."
        else "Principal " ++ debugStr memberName ++ " cannot be added as a member.")))
  else .ok ()

/-- The types a principal of type `typ` may have as members (`allowed_member_types`). -/
def allowedMemberTypes : PType → List PType
  | .group => [.individual, .group]
  | .resource => [.resource]
  | .location => [.location, .resource, .individual, .group, .other]
  | .list => [.individual, .group]
  | .other | .domain | .tenant | .individual | .apiKey | .oauthClient => []
  | .role => [.role]

/-! ## The directory and its batches -/

/-- The directory keys `update_principal` reads and writes: `NameToId`, and the two
membership families. -/
structure DirectoryStore where
  names : List (String × PrincipalInfo)
  memberOf : List ((UInt32 × UInt32) × List UInt8)
  members : List (UInt32 × UInt32)
  deriving DecidableEq, Repr

/-- One membership write: `link child parent value` sets `MemberOf { child, parent }` to
`value` and `Members { parent, child }`; `unlink` clears both. `update_principal` writes
the two keys of a pair in adjacent batch operations. -/
inductive Op
  | link (child parent : UInt32) (value : List UInt8)
  | unlink (child parent : UInt32)
  deriving DecidableEq, Repr

def applyOp (d : DirectoryStore) : Op → DirectoryStore
  | .link child parent value =>
    { d with
      memberOf := d.memberOf.filter (·.1 ≠ (child, parent)) ++ [((child, parent), value)]
      members := d.members.filter (· ≠ (parent, child)) ++ [(parent, child)] }
  | .unlink child parent =>
    { d with
      memberOf := d.memberOf.filter (·.1 ≠ (child, parent))
      members := d.members.filter (· ≠ (parent, child)) }

/-- The store writing a batch, in order. -/
def applyBatch (d : DirectoryStore) (batch : List Op) : DirectoryStore := batch.foldl applyOp d

/-- `get_principal_info`. -/
def DirectoryStore.principalInfo (d : DirectoryStore) (name : String) : Option PrincipalInfo :=
  (d.names.find? (·.1 = name)).map Prod.snd

/-- `get_principal_id`. -/
def DirectoryStore.principalId (d : DirectoryStore) (name : String) : Option UInt32 :=
  (d.principalInfo name).map PrincipalInfo.id

/-- `MemberOf` of `get_member_of`: a parent id and its type. -/
structure MemberOf where
  principalId : UInt32
  typ : PType
  deriving DecidableEq, Repr

/-- `get_member_of`: the `MemberOf` keys of the principal in key order, with the type
read from the first byte of the value (`Group` when there is none). -/
def getMemberOf (d : DirectoryStore) (principalId : UInt32) : List MemberOf :=
  ((d.memberOf.filter (·.1.1 = principalId)).mergeSort (fun a b => a.1.2 ≤ b.1.2)).map fun e =>
    ⟨e.1.2, (e.2.head?.map PType.fromU8).getD .group⟩

/-- `get_members`: the `Members` keys of the principal in key order. -/
def getMembers (d : DirectoryStore) (principalId : UInt32) : List UInt32 :=
  ((d.members.filter (·.1 = principalId)).map Prod.snd).mergeSort (· ≤ ·)

/-- The field `Store::query` with `return_member_of` files a membership under. -/
def fieldOf : PType → Field
  | .list => .lists
  | .role => .roles
  | _ => .memberOf

/-- The ids `Store::query` with `return_member_of` lists in one field. -/
def queryField (d : DirectoryStore) (principalId : UInt32) (field : Field) : List UInt32 :=
  ((getMemberOf d principalId).filter (fieldOf ·.typ = field)).map MemberOf.principalId

/-! ## `update_principal` on the membership fields -/

/-- What `update_principal` threads through the changes: the principal's `member_of` and
`members` ids and the batch. -/
structure Loop where
  memberOf : List UInt32
  members : List UInt32
  batch : List Op

section Update

variable (d : DirectoryStore) (principalId : UInt32) (typ : PType) (tenantId : Option UInt32)

/-- The principal a name of a `MemberOf`, `Lists` or `Roles` change names: one of the
tenant's, or a built-in role. -/
def resolveMemberOf (field : Field) (name : String) : Except Error PrincipalInfo :=
  match ((d.principalInfo name).filter (·.hasTenantAccess tenantId)).or (mapInternalRoles field name) with
  | some info => .ok info
  | none => .error (.notFound name)

/-- The principal a name of a `Members` change names. -/
def resolveMember (name : String) : Except Error PrincipalInfo :=
  match (d.principalInfo name).filter (·.hasTenantAccess tenantId) with
  | some info => .ok info
  | none => .error (.notFound name)

/-- The error for a member of a type the principal cannot have. -/
def invalidMembers (member : String) : Error :=
  .error "Invalid members value" (some ("Principal " ++ debugStr member ++ " is not one of " ++
    ", ".intercalate ((allowedMemberTypes typ).map PType.asStr) ++ "."))

/-- The loop of a `Set` on `MemberOf`, `Lists` or `Roles` over its names: a new parent is
linked, and every name's id goes to `new_member_of`. -/
def setMemberOfLoop (field : Field) (old : List UInt32) :
    List String → List UInt32 → List Op → Except Error (List UInt32 × List Op)
  | [], new, batch => .ok (new, batch)
  | member :: rest, new, batch => do
    let info ← resolveMemberOf d tenantId field member
    validateMemberOf field typ info.typ member
    let batch := if old.contains info.id then batch
      else batch ++ [.link principalId info.id [info.typ.toU8]]
    setMemberOfLoop field old rest (new ++ [info.id]) batch

/-- The loop of a `Set` on `Members` over its names. -/
def setMembersLoop (old : List UInt32) :
    List String → List UInt32 → List Op → Except Error (List UInt32 × List Op)
  | [], new, batch => .ok (new, batch)
  | member :: rest, new, batch => do
    let info ← resolveMember d tenantId member
    if !(allowedMemberTypes typ).contains info.typ then throw (invalidMembers typ member)
    let batch := if old.contains info.id then batch
      else batch ++ [.link info.id principalId [typ.toU8]]
    setMembersLoop old rest (new ++ [info.id]) batch

/-- One change of `update_principal`'s loop, for the membership fields. -/
def changeStep (loop : Loop) (change : Change) : Except Error Loop :=
  match change.action, change.field, change.value with
  | .set, .members, .stringList names => do
    let (new, batch) ← setMembersLoop d principalId typ tenantId loop.members names [] loop.batch
    let batch := loop.members.foldl (fun batch id =>
      if new.contains id then batch else batch ++ [.unlink id principalId]) batch
    pure ⟨loop.memberOf, new, batch⟩
  | .addItem, .members, .string member => do
    let info ← resolveMember d tenantId member
    if !loop.members.contains info.id then
      if !(allowedMemberTypes typ).contains info.typ then throw (invalidMembers typ member)
      pure ⟨loop.memberOf, loop.members ++ [info.id],
        loop.batch ++ [.link info.id principalId [typ.toU8]]⟩
    else pure loop
  | .removeItem, .members, .string member =>
    match d.principalId member with
    | some memberId =>
      match loop.members.idxOf? memberId with
      | some pos => pure ⟨loop.memberOf, loop.members.eraseIdx pos, loop.batch ++ [.unlink memberId principalId]⟩
      | none => pure loop
    | none => pure loop
  | .set, field, .stringList names => do
    let (new, batch) ← setMemberOfLoop d principalId typ tenantId field loop.memberOf names [] loop.batch
    let batch := loop.memberOf.foldl (fun batch id =>
      if new.contains id then batch else batch ++ [.unlink principalId id]) batch
    pure ⟨new, loop.members, batch⟩
  | .addItem, field, .string member => do
    let info ← resolveMemberOf d tenantId field member
    if !loop.memberOf.contains info.id then
      validateMemberOf field typ info.typ member
      pure ⟨loop.memberOf ++ [info.id], loop.members,
        loop.batch ++ [.link principalId info.id [info.typ.toU8]]⟩
    else pure loop
  | .removeItem, field, .string member =>
    match (d.principalId member).or (mapInternalRoleName field member) with
    | some memberId =>
      match loop.memberOf.idxOf? memberId with
      | some pos => pure ⟨loop.memberOf.eraseIdx pos, loop.members, loop.batch ++ [.unlink principalId memberId]⟩
      | none => pure loop
    | none => pure loop
  | _, field, value =>
    .error (.error "Invalid parameter" (some ("Invalid value " ++ value.debug ++ " for " ++ field.asStr)))

/-- `update_principal` for changes of the membership fields: the loop over the changes from
the loaded `member_of` and `members`, then one batch. -/
def updatePrincipal (changes : List Change) : Except Error DirectoryStore := do
  let loop ← changes.foldlM (changeStep d principalId typ tenantId)
    ⟨(getMemberOf d principalId).map MemberOf.principalId, getMembers d principalId, []⟩
  pure (applyBatch d loop.batch)

end Update

/-! ## A `Set` on one field clears the others -/

theorem mem_queryField {d : DirectoryStore} {principalId g : UInt32} {field : Field} :
    g ∈ queryField d principalId field ↔
      ∃ v, ((principalId, g), v) ∈ d.memberOf ∧ fieldOf ((v.head?.map PType.fromU8).getD .group) = field := by
  simp only [queryField, getMemberOf, List.mem_map, List.mem_filter, List.mem_mergeSort]
  constructor
  · rintro ⟨_, ⟨⟨e, ⟨he, hp⟩, rfl⟩, hf⟩, rfl⟩
    obtain ⟨⟨p, g⟩, v⟩ := e
    simp only [decide_eq_true_eq] at hp hf
    subst hp
    exact ⟨v, he, hf⟩
  · rintro ⟨v, he, hf⟩
    exact ⟨_, ⟨⟨_, ⟨he, by simp⟩, rfl⟩, by simpa using hf⟩, rfl⟩

theorem foldl_unlinks (principalId : UInt32) (new old : List UInt32) (batch : List Op) :
    old.foldl (fun batch id => if new.contains id then batch else batch ++ [.unlink principalId id])
        batch = batch ++ (old.filter fun id => !new.contains id).map (Op.unlink principalId) := by
  induction old generalizing batch with
  | nil => simp
  | cons id old ih =>
    rw [List.foldl_cons, ih]
    by_cases h : new.contains id
    · rw [if_pos h, List.filter_cons_of_neg (by rw [h]; decide)]
    · rw [if_neg h, List.filter_cons_of_pos (by simpa using h), List.map_cons, List.append_assoc]
      rfl

theorem not_mem_applyBatch {d : DirectoryStore} {c p : UInt32}
    (h : ∀ v, ((c, p), v) ∉ d.memberOf) {batch : List Op}
    (hbatch : ∀ op ∈ batch, ∀ v, op ≠ .link c p v) : ∀ v, ((c, p), v) ∉ (applyBatch d batch).memberOf := by
  induction batch generalizing d with
  | nil => exact h
  | cons op batch ih =>
    refine ih ?_ fun op' hop' => hbatch op' (List.mem_cons_of_mem _ hop')
    intro v hv
    cases op with
    | link c' p' v' =>
      simp only [applyOp, List.mem_append, List.mem_filter, List.mem_singleton] at hv
      rcases hv with ⟨hv, -⟩ | hv
      · exact h v hv
      · obtain ⟨hk, rfl⟩ := Prod.mk.inj hv
        obtain ⟨rfl, rfl⟩ := Prod.mk.inj hk
        exact hbatch _ List.mem_cons_self v rfl
    | unlink c' p' =>
      simp only [applyOp, List.mem_filter] at hv
      exact h v hv.1

/-- After an `unlink` followed only by writes that do not link the key again, the key is
gone. -/
theorem not_mem_applyBatch_unlink (d : DirectoryStore) {c p : UInt32} (pre post : List Op)
    (hpost : ∀ op ∈ post, ∀ v, op ≠ .link c p v) (v : List UInt8) :
    ((c, p), v) ∉ (applyBatch d (pre ++ .unlink c p :: post)).memberOf := by
  rw [applyBatch, List.foldl_append, List.foldl_cons]
  refine not_mem_applyBatch (fun v hv => ?_) hpost v
  simp [applyOp] at hv

section Loops

variable {d : DirectoryStore} {principalId : UInt32} {typ : PType} {tenantId : Option UInt32}

theorem mem_of_setMemberOfLoop {field : Field} {old : List UInt32} :
    ∀ {names : List String} {new₀ : List UInt32} {batch₀ : List Op} {new : List UInt32}
      {batch : List Op},
      setMemberOfLoop d principalId typ tenantId field old names new₀ batch₀ = .ok (new, batch) →
      ∀ id ∈ new, id ∈ new₀ ∨
        ∃ name ∈ names, ∃ info, resolveMemberOf d tenantId field name = .ok info ∧ info.id = id
  | [], new₀, batch₀, new, batch, h, id, hid => by
    simp only [setMemberOfLoop, Except.ok.injEq, Prod.mk.injEq] at h
    obtain ⟨rfl, -⟩ := h
    exact Or.inl hid
  | member :: rest, new₀, batch₀, new, batch, h, id, hid => by
    simp only [setMemberOfLoop] at h
    obtain ⟨info, hinfo, h⟩ := bind_eq_ok.mp h
    obtain ⟨_, -, h⟩ := bind_eq_ok.mp h
    rcases mem_of_setMemberOfLoop h id hid with hin | ⟨name, hname, info', hr, rfl⟩
    · rcases List.mem_append.mp hin with hin | hin
      · exact Or.inl hin
      · rw [List.mem_singleton] at hin
        subst hin
        exact Or.inr ⟨member, List.mem_cons_self, info, hinfo, rfl⟩
    · exact Or.inr ⟨name, List.mem_cons_of_mem _ hname, info', hr, rfl⟩

end Loops

/-- A `Set` on the roles compares its new list with the whole `member_of` vector, which holds
the principal's groups and lists too: a group the new roles do not name is cleared, although
the request changes no group membership. -/
theorem setRoles_clears_memberOf {d d' : DirectoryStore} {principalId : UInt32} {typ : PType}
    {tenantId : Option UInt32} {names : List String}
    (hok : updatePrincipal d principalId typ tenantId [⟨.set, .roles, .stringList names⟩] = .ok d')
    {g : UInt32} (hg : g ∈ queryField d principalId .memberOf)
    (hnot : ∀ name ∈ names, ∀ info, resolveMemberOf d tenantId .roles name = .ok info → info.id ≠ g) :
    g ∉ queryField d' principalId .memberOf := by
  obtain ⟨old, hold⟩ : ∃ old, (getMemberOf d principalId).map MemberOf.principalId = old := ⟨_, rfl⟩
  simp only [updatePrincipal, List.foldlM_cons, List.foldlM_nil, bind_pure, changeStep, hold] at hok
  obtain ⟨loop, hloop, hd'⟩ := bind_eq_ok.mp hok
  obtain ⟨⟨new, batch⟩, hset, hl⟩ := bind_eq_ok.mp hloop
  simp only [pure, Except.pure, Except.ok.injEq] at hl hd'
  subst hl hd'
  have hgold : g ∈ old := by
    rw [← hold]
    simp only [queryField] at hg
    obtain ⟨m, hm, rfl⟩ := List.mem_map.mp hg
    exact List.mem_map_of_mem (List.mem_filter.mp hm).1
  have hgnew : g ∉ new := fun h => by
    rcases mem_of_setMemberOfLoop hset g h with h | ⟨name, hname, info, hr, hid⟩
    · cases h
    · exact hnot name hname info hr hid
  have hmem : Op.unlink principalId g ∈ (old.filter fun id => !new.contains id).map (Op.unlink principalId) :=
    List.mem_map_of_mem (List.mem_filter.mpr ⟨hgold, by simpa using hgnew⟩)
  obtain ⟨A, B, hAB⟩ := List.mem_iff_append.mp hmem
  have hB : ∀ op ∈ B, ∀ v, op ≠ .link principalId g v := by
    intro op hop v he
    subst he
    have : Op.link principalId g v ∈ (old.filter fun id => !new.contains id).map (Op.unlink principalId) := by
      rw [hAB]
      exact List.mem_append_right _ (List.mem_cons_of_mem _ hop)
    obtain ⟨_, -, h⟩ := List.mem_map.mp this
    cases h
  intro hg'
  obtain ⟨v, hv, -⟩ := mem_queryField.mp hg'
  rw [foldl_unlinks, hAB, ← List.append_assoc] at hv
  exact not_mem_applyBatch_unlink d _ B hB v hv

/-- Principal `1` is in group `2` and gets the roles `["admins"]`: the group membership is
cleared with them. -/
theorem setRoles_clears_memberOf_group :
    let d : DirectoryStore := ⟨[("admins", ⟨3, .role, none⟩)], [((1, 2), [1])], [(2, 1)]⟩
    updatePrincipal d 1 .individual none [⟨.set, .roles, .stringList ["admins"]⟩] =
        .ok ⟨[("admins", ⟨3, .role, none⟩)], [((1, 3), [9])], [(3, 1)]⟩ ∧
      2 ∈ queryField d 1 .memberOf ∧
      2 ∉ queryField ⟨[("admins", ⟨3, .role, none⟩)], [((1, 3), [9])], [(3, 1)]⟩ 1 .memberOf := by
  intro d
  have hok : updatePrincipal d 1 .individual none [⟨.set, .roles, .stringList ["admins"]⟩] =
      .ok ⟨[("admins", ⟨3, .role, none⟩)], [((1, 3), [9])], [(3, 1)]⟩ := by with_unfolding_all decide
  have hg : (2 : UInt32) ∈ queryField d 1 .memberOf := by with_unfolding_all decide
  refine ⟨hok, hg, setRoles_clears_memberOf hok hg ?_⟩
  intro name hname info hr
  simp only [List.mem_singleton] at hname
  subst hname
  have : resolveMemberOf d none .roles "admins" = .ok ⟨3, .role, none⟩ := by decide
  rw [this] at hr
  cases hr
  decide

end MailServer.Directory.Manage
