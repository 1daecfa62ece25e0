import Mathlib
import MailServer.Lib.Forest
import MailServer.Lib.AssocList
import MailServer.Lib.Fallible
import MailServer.Store.DocumentId

/-! # `Mailbox/set` and the mailbox tree

A mailbox is stored as an object of properties; its `parentId` is `0` for a top-level
mailbox and the parent's document id plus one otherwise. `mailbox_set_item` reads the
properties of one create or update, walks up from the new parent for at most
`mailbox_max_depth` steps, and checks the role and the name against the account's other
mailboxes; `mailbox_set` then writes each create and update in its own batch, in request
order, and destroys the mailboxes listed for destruction, which must have no child.

The checks read the first value of a property (`VecMap::get`), while the request parser
appends every key of the JSON object, repeated ones included, and the update merges every
value in order: a repeated `parentId` is validated by its first value and stored with its
last (`mailboxSet_repeated_parentId_cycle`). For requests whose objects repeat no property,
every `mailbox_set` keeps each mailbox's chain of parents ending at the root and the roles
unique (`mailboxSet_wellFormed`), over whole runs (`mailboxTree_acyclic`). Names are compared
with the siblings' only when a request changes the name, so a move can leave two siblings
with one name (`mailboxSet_move_duplicates_name`).
-/

namespace MailServer.Jmap.MailboxSet

open MailServer.Lib.AssocList

/-- The mailbox properties a `Mailbox/set` object may carry; `other` is any other one. -/
inductive Property
  | name
  | parentId
  | isSubscribed
  | role
  | sortOrder
  | acl
  | other (key : String)
  deriving DecidableEq, Repr

/-- The values of those properties. -/
inductive Value
  | null
  | text (s : String)
  | id (n : ℕ)
  | bool (b : Bool)
  | unsignedInt (n : ℕ)
  | idList (ids : List ℕ)
  deriving DecidableEq, Repr

/-- `Object<Value>`: its properties in order, as its `VecMap` keeps them. -/
abbrev Object := List (Property × Value)

namespace Object

/-- `Object::get`: the first value of the property, `Null` when there is none. -/
def get (obj : Object) (p : Property) : Value := (obj.lookup p).getD .null

/-- `VecMap::set`: replaces the first value of the property, or appends one. -/
def set : Object → Property → Value → Object
  | [], p, v => [(p, v)]
  | (q, w) :: rest, p, v => if q = p then (p, v) :: rest else (q, w) :: set rest p v

/-- `Object::remove`: drops the first value of the property. -/
def remove : Object → Property → Object
  | [], _ => []
  | (q, w) :: rest, p => if q = p then rest else (q, w) :: remove rest p

/-- The parent a stored mailbox points at, as the parent walk reads it: the id of its
`parentId`, `0` where it has none (`try_unwrap_id ... unwrap_or(0)`). -/
def parentId (obj : Object) : ℕ :=
  match obj.get .parentId with
  | .id n => n
  | _ => 0

end Object

/-- `char::is_whitespace`: the Unicode `White_Space` characters. -/
def isWhitespace (c : Char) : Bool :=
  (9 ≤ c.val && c.val ≤ 13) || c.val == 32 || c.val == 0x85 || c.val == 0xA0 ||
    c.val == 0x1680 || (0x2000 ≤ c.val && c.val ≤ 0x200A) || c.val == 0x2028 ||
    c.val == 0x2029 || c.val == 0x202F || c.val == 0x205F || c.val == 0x3000

/-- `str::trim`. -/
def trim (s : String) : String :=
  String.ofList ((s.toList.dropWhile isWhitespace).reverse.dropWhile isWhitespace).reverse

/-- The roles a mailbox may take. -/
def roles : List String := ["inbox", "trash", "spam", "junk", "drafts", "archive", "sent"]

/-- `INBOX_ID`, `TRASH_ID` and `JUNK_ID`. -/
def inboxId : ℕ := 0
def trashId : ℕ := 1
def junkId : ℕ := 2

/-- The document id of a mailbox not created yet, `u32::MAX`. -/
def u32Max : ℕ := 4294967295

/-- `SetErrorType`, the kinds of error `Mailbox/set` reports. -/
inductive SetErrorType
  | invalidProperties
  | willDestroy
  | forbidden
  | notFound
  | mailboxHasChild
  | mailboxHasEmail
  deriving DecidableEq, Repr

/-- `SetError`. -/
structure SetError where
  type_ : SetErrorType
  description : Option String
  properties : Option (List Property)
  deriving DecidableEq, Repr

namespace SetError

def new (type_ : SetErrorType) : SetError := ⟨type_, none, none⟩

def withDescription (e : SetError) (description : String) : SetError :=
  { e with description := some description }

def withProperty (e : SetError) (p : Property) : SetError := { e with properties := some [p] }

def willDestroy : SetError := (new .willDestroy).withDescription "ID will be destroyed."

/-- An invalid value of `p`, with the description `d`. -/
def invalid (p : Property) (d : String) : SetError :=
  ((new .invalidProperties).withProperty p).withDescription d

def forbidden (d : String) : SetError := (new .forbidden).withDescription d

end SetError

/-- `Acl`. -/
inductive Acl
  | read | modify | delete | readItems | addItems | modifyItems | removeItems | createChild
  | administer | submit
  deriving DecidableEq, Repr

/-- What `mailbox_set` reads of the access token: the primary id, whether the account is
shared with the caller, the caller's effective ACL on a mailbox and whether the caller may
delete system folders. -/
structure Caller where
  primaryId : ℕ
  isShared : Bool
  acl : Object → List Acl
  deleteSystemFolders : Bool

/-- `mailbox_max_depth`, `mailbox_name_max_len`, `str::to_lowercase`, whose Unicode case
mapping the model takes as given, and `acl_set`, taken as given too: the ACL value it writes
for the request's value, read against the stored mailbox of an update, or its error. -/
structure Config where
  maxDepth : ℕ
  nameMaxLen : ℕ
  toLowercase : String → String
  aclSet : Option Object → Value → Except SetError Value

/-- The mailboxes of the account: each document id with its stored object. -/
structure Mailboxes where
  docs : List (ℕ × Object)

namespace Mailboxes

def get (s : Mailboxes) (d : ℕ) : Option Object := s.docs.lookup d

def ids (s : Mailboxes) : List ℕ := keys s.docs

/-- A batch creating document `d`. -/
def insert (s : Mailboxes) (d : ℕ) (obj : Object) : Mailboxes := ⟨s.docs ++ [(d, obj)]⟩

/-- A batch rewriting the object of document `d`. -/
def update (s : Mailboxes) (d : ℕ) (obj : Object) : Mailboxes := ⟨replace s.docs d obj⟩

/-- A batch deleting document `d`. -/
def erase (s : Mailboxes) (d : ℕ) : Mailboxes := ⟨s.docs.filter fun e => e.1 ≠ d⟩

/-- `Store::filter` on `p = v`: every value of an indexed property of a stored object is in
the index. -/
def filterEq (s : Mailboxes) (p : Property) (v : Value) : List ℕ :=
  (s.docs.filter fun e => (p, v) ∈ e.2).map Prod.fst

/-- `Store::filter` on `p = v` and `q = w`. -/
def filterEq₂ (s : Mailboxes) (p : Property) (v : Value) (q : Property) (w : Value) : List ℕ :=
  (s.docs.filter fun e => (p, v) ∈ e.2 ∧ (q, w) ∈ e.2).map Prod.fst

end Mailboxes

/-- `SetContext`: the caller, the account's mailbox ids and the ids the request destroys. -/
structure SetContext where
  caller : Caller
  mailboxIds : List ℕ
  willDestroy : List ℕ

/-- `mailbox_subscribe`: the new `isSubscribed` value, `none` where nothing changes. -/
def mailboxSubscribe (obj : Object) (accountId : ℕ) (subscribe : Bool) : Option Value :=
  match obj.get .isSubscribed with
  | .idList subscriptions =>
    if subscribe then
      if accountId ∉ subscriptions then some (.idList (subscriptions ++ [accountId])) else none
    else if accountId ∈ subscriptions then
      if subscriptions.length > 1 then some (.idList (subscriptions.filter (· ≠ accountId)))
      else some .null
    else none
  | _ => if subscribe then some (.idList [accountId]) else none

/-- The `{:?}` form of a string, without the escapes of special characters. -/
def debugString (s : String) : String := "\"" ++ s ++ "\""

section Item

variable (cfg : Config) (ctx : SetContext) (s : Mailboxes)

/-- One property of the request as `mailbox_set_item` parses it: the value to keep, `none`
where the loop `continue`s, or the error. -/
def parseProperty (update : Option (ℕ × Object)) : Property → Value → Except SetError (Option Value)
  | .name, .text value =>
    let value := trim value
    if value ≠ "" ∧ value.utf8ByteSize < cfg.nameMaxLen then .ok (some (.text value))
    else
      .error (.invalid .name
        (if value ≠ "" then "Mailbox name is too long." else "Mailbox name cannot be empty."))
  | .parentId, .id value =>
    if value ∈ ctx.willDestroy then
      .error (SetError.willDestroy.withDescription "Parent ID will be destroyed.")
    else if value ∉ ctx.mailboxIds then
      .error ((SetError.new .invalidProperties).withDescription "Parent ID does not exist.")
    else .ok (some (.id (value + 1)))
  | .parentId, .null => .ok (some (.id 0))
  | .isSubscribed, .bool subscribe =>
    match update with
    | some (_, current) => .ok (mailboxSubscribe current ctx.caller.primaryId subscribe)
    | none => .ok (if subscribe then some (.idList [ctx.caller.primaryId]) else none)
  | .role, .text value =>
    let role := cfg.toLowercase (trim value)
    if role ∈ roles then .ok (some (.text role))
    else .error (.invalid .role ("Invalid role " ++ debugString role ++ "."))
  | .role, .null => .ok (some .null)
  | .sortOrder, .unsignedInt value => .ok (some (.unsignedInt value))
  | .acl, value => (cfg.aclSet (update.map Prod.snd) value).map some
  | p, _ => .error (.invalid p "Invalid property or value.")

/-- The parse loop of `mailbox_set_item`: the changes, in request order. -/
def parseChanges (update : Option (ℕ × Object)) : Object → Except SetError Object
  | [] => .ok []
  | (p, v) :: rest => do
    let value ← parseProperty cfg ctx update p v
    let changes ← parseChanges update rest
    pure (match value with
      | some value => (p, value) :: changes
      | none => changes)

/-- The walk of `mailbox_set_item` up from the new parent: `depth` is the loop index and
`fuel` the iterations left of `0..mailbox_max_depth`. -/
def walkParent (currentId : ℕ) : ℕ → ℕ → ℕ → Except SetError Unit
  | _, 0, _ => .error (.invalid .parentId "Mailbox parent-child relationship is too deep.")
  | depth, fuel + 1, parentId =>
    if parentId = currentId then
      .error (.invalid .parentId "Mailbox cannot be a parent of itself.")
    else if parentId = 0 then
      if depth = 0 ∧ ctx.caller.isShared = true then
        .error (.forbidden "You are not allowed to create root folders.")
      else .ok ()
    else
      match s.get (parentId - 1) with
      | some fields =>
        if depth = 0 ∧ ctx.caller.isShared = true ∧
            ¬(Acl.createChild ∈ ctx.caller.acl fields ∨ Acl.administer ∈ ctx.caller.acl fields) then
          .error (.forbidden "You are not allowed to create sub mailboxes under this mailbox.")
        else walkParent currentId (depth + 1) fuel fields.parentId
      -- the parent is probably created within the same request
      | none =>
        if parentId - 1 ∈ ctx.mailboxIds then .ok ()
        else .error (.invalid .parentId "Mailbox parent does not exist.")

/-- The parent id of the mailbox being updated, `u32::MAX` for a create. -/
def currentMailboxId : Option (ℕ × Object) → ℕ
  | some (d, _) => d + 1
  | none => u32Max

/-- The parent check of `mailbox_set_item`; a create without `parentId` gets the root. -/
def checkParent (update : Option (ℕ × Object)) (changes : Object) : Except SetError Object :=
  match changes.get .parentId with
  | .id parentId =>
    (walkParent ctx s (currentMailboxId update) 0 cfg.maxDepth parentId).map fun _ => changes
  | _ => .ok (if update.isNone then changes ++ [(.parentId, .id 0)] else changes)

/-- The role of the mailbox being updated, `""` for a create or a mailbox without one. -/
def currentRole : Option (ℕ × Object) → String
  | some (_, current) =>
    match current.get .role with
    | .text r => r
    | _ => ""
  | none => ""

/-- The role check of `mailbox_set_item`: a new role must be free, and the role of the
inbox and the trash cannot change. -/
def checkRole (update : Option (ℕ × Object)) (changes : Object) : Except SetError Unit :=
  match changes.get .role with
  | .text role =>
    if currentRole update ≠ role then
      if s.filterEq .role (.text role) ≠ [] then
        .error (.invalid .role ("A mailbox with role '" ++ role ++ "' already exists."))
      else if (match update with
          | some (d, _) => d == inboxId || d == trashId
          | none => false) = true then
        .error (.invalid .role "You are not allowed to change the role of Inbox or Trash folders.")
      else .ok ()
    else .ok ()
  | _ => .ok ()

/-- The parent whose children must not share a new name: the new parent, else the current
one if the name changes, else the root for a create. -/
def nameParent (update : Option (ℕ × Object)) (changes : Object) (name : String) : Option ℕ :=
  match changes.get .parentId with
  | .id p => some p
  | _ =>
    match update with
    | some (_, current) =>
      if current.get .name ≠ .text name then
        some (match current.get .parentId with
          | .id p => p
          | _ => 0)
      else none
    | none => some 0

/-- The name check of `mailbox_set_item`. -/
def checkName (update : Option (ℕ × Object)) (changes : Object) : Except SetError Unit :=
  match changes.get .name with
  | .text name =>
    match nameParent update changes name with
    | some p =>
      if s.filterEq₂ .name (.text name) .parentId (.id p) ≠ [] then
        .error (.invalid .name ("A mailbox with name '" ++ name ++ "' already exists."))
      else .ok ()
    | none => .ok ()
  | _ => .ok ()

/-- `ObjectIndexBuilder::validate`: the name, changed or current, is required. -/
def validate (update : Option (ℕ × Object)) (changes : Object) : Except SetError Unit :=
  let name := match changes.lookup .name with
    | some v => v
    | none =>
      match update with
      | some (_, current) => current.get .name
      | none => .null
  match name with
  | .null => .error (.invalid .name "Property cannot be empty.")
  | .text t => if trim t = "" then .error (.invalid .name "Property cannot be empty.") else .ok ()
  | _ => .ok ()

/-- `mailbox_set_item`: the changes to write for a create (`update = none`) or an update of
document `d` whose current object is `current`. -/
def mailboxSetItem (request : Object) (update : Option (ℕ × Object)) : Except SetError Object := do
  let changes ← parseChanges cfg ctx update request
  let changes ← checkParent cfg ctx s update changes
  checkRole s update changes
  checkName s update changes
  validate update changes
  pure changes

end Item

/-- `merge_batch`'s effect on the stored object: each change in order, skipped where the
object already has the value, removed where the change is `Null`. -/
def merge (current changes : Object) : Object :=
  changes.foldl (fun current (e : Property × Value) =>
    if current.get e.1 = e.2 then current
    else if e.2 ≠ .null then current.set e.1 e.2
    else current.remove e.1) current

/-- The parent document a batch asserts to exist: that of a `parentId` change above `0`. -/
def assertedParent (changes : Object) : Option ℕ :=
  match changes.get .parentId with
  | .id p => if p > 0 then some (p - 1) else none
  | _ => none

/-- The batch's assertion on the parent fails. -/
def parentGone (s : Mailboxes) (changes : Object) : Prop :=
  ∃ p, assertedParent changes = some p ∧ s.get p = none

instance (s : Mailboxes) (changes : Object) : Decidable (parentGone s changes) :=
  match h : assertedParent changes with
  | some p => decidable_of_iff (s.get p = none) (by simp [parentGone, h])
  | none => isFalse (by simp [parentGone, h])

/-- A `Mailbox/set` request: the objects to create with their creation ids, the objects to
update by document id, the ids to destroy, and `onDestroyRemoveEmails`. -/
structure Request where
  create : List (String × Object)
  update : List (ℕ × Object)
  destroy : List ℕ
  onDestroyRemoveEmails : Bool

/-- `SetResponse`, its created, updated and destroyed ids and its errors. -/
structure Response where
  created : List (String × ℕ)
  notCreated : List (String × SetError)
  updated : List ℕ
  notUpdated : List (ℕ × SetError)
  destroyed : List ℕ
  notDestroyed : List (ℕ × SetError)

def Response.empty : Response := ⟨[], [], [], [], [], []⟩

section Set

variable (cfg : Config) (assign : Mailboxes → ℕ)

/-- One create of `mailbox_set`; `assign` is the document id the store gives the batch. -/
def createOne (st : SetContext × Mailboxes × Response) (item : String × Object) :
    SetContext × Mailboxes × Response :=
  let (ctx, s, resp) := st
  match mailboxSetItem cfg ctx s item.2 none with
  | .error e => (ctx, s, { resp with notCreated := resp.notCreated ++ [(item.1, e)] })
  | .ok changes =>
    if parentGone s changes then
      (ctx, s, { resp with notCreated := resp.notCreated ++
        [(item.1, .forbidden "Another process deleted the parent mailbox, please try again.")] })
    else
      let d := assign s
      ({ ctx with mailboxIds := ctx.mailboxIds ++ [d] }, s.insert d changes,
        { resp with created := resp.created ++ [(item.1, d)] })

/-- One update of `mailbox_set`. -/
def updateOne (ctx : SetContext) (st : Mailboxes × Response) (item : ℕ × Object) :
    Mailboxes × Response :=
  let (s, resp) := st
  let (d, request) := item
  if d ∈ ctx.willDestroy then (s, { resp with notUpdated := resp.notUpdated ++ [(d, .willDestroy)] })
  else
    match s.get d with
    | none => (s, { resp with notUpdated := resp.notUpdated ++ [(d, .new .notFound)] })
    | some mailbox =>
      if ctx.caller.isShared = true ∧ Acl.modify ∉ ctx.caller.acl mailbox then
        (s, { resp with notUpdated := resp.notUpdated ++
          [(d, .forbidden "You are not allowed to modify this mailbox.")] })
      else if ctx.caller.isShared = true ∧ Property.acl ∈ keys request ∧
          Acl.administer ∉ ctx.caller.acl mailbox then
        (s, { resp with notUpdated := resp.notUpdated ++
          [(d, .forbidden "You are not allowed to change the permissions of this mailbox.")] })
      else
        match mailboxSetItem cfg ctx s request (some (d, mailbox)) with
        | .error e => (s, { resp with notUpdated := resp.notUpdated ++ [(d, e)] })
        | .ok changes =>
          if parentGone s changes then
            (s, { resp with notUpdated := resp.notUpdated ++
              [(d, .forbidden "Another process modified this mailbox, please try again.")] })
          else (s.update d (merge mailbox changes), { resp with updated := resp.updated ++ [d] })

/-- `mailbox_destroy`, for the mailboxes: `hasEmails` says whether the mailbox holds emails. -/
def mailboxDestroy (caller : Caller) (hasEmails : ℕ → Bool) (removeEmails : Bool) (s : Mailboxes)
    (d : ℕ) : Except SetError Mailboxes :=
  if d ∈ [inboxId, trashId, junkId] ∧ caller.deleteSystemFolders = false then
    .error (.forbidden "You are not allowed to delete Inbox, Junk or Trash folders.")
  else if s.filterEq .parentId (.id (d + 1)) ≠ [] then
    .error ((SetError.new .mailboxHasChild).withDescription "Mailbox has at least one children.")
  else if hasEmails d = true ∧ removeEmails = false then
    .error ((SetError.new .mailboxHasEmail).withDescription "Mailbox is not empty.")
  else
    match s.get d with
    | some mailbox =>
      if caller.isShared = true ∧ Acl.administer ∉ caller.acl mailbox then
        if Acl.delete ∉ caller.acl mailbox then
          .error (.forbidden "You are not allowed to delete this mailbox.")
        else if removeEmails = true ∧ Acl.removeItems ∉ caller.acl mailbox then
          .error (.forbidden "You are not allowed to delete emails from this mailbox.")
        else .ok (s.erase d)
      else .ok (s.erase d)
    | none => .error (.new .notFound)

/-- One destroy of `mailbox_set`. -/
def destroyOne (caller : Caller) (hasEmails : ℕ → Bool) (removeEmails : Bool)
    (st : Mailboxes × Response) (d : ℕ) : Mailboxes × Response :=
  let (s, resp) := st
  match mailboxDestroy caller hasEmails removeEmails s d with
  | .ok s' => (s', { resp with destroyed := resp.destroyed ++ [d] })
  | .error e => (s, { resp with notDestroyed := resp.notDestroyed ++ [(d, e)] })

/-- `mailbox_set`: the creates in order, then the updates, then the destroys. -/
def mailboxSet (caller : Caller) (hasEmails : ℕ → Bool) (s : Mailboxes) (req : Request) :
    Mailboxes × Response :=
  let ctx : SetContext := ⟨caller, s.ids, req.destroy⟩
  let (ctx, s, resp) := req.create.foldl (createOne cfg assign) (ctx, s, .empty)
  let st := req.update.foldl (updateOne cfg ctx) (s, resp)
  req.destroy.foldl (destroyOne caller hasEmails req.onDestroyRemoveEmails) st

end Set

/-! ## The objects and the store -/

namespace Object

variable {obj : Object} {p q : Property} {v w : Value}

theorem get_cons (rest : Object) :
    Object.get ((q, w) :: rest) p = if p = q then w else rest.get p := by
  unfold get
  rw [lookup_cons]
  split_ifs <;> rfl

theorem get_eq_of_lookup (h : obj.lookup p = some v) : obj.get p = v := by
  simp [get, h]

theorem get_eq_null_of_not_mem (h : p ∉ keys obj) : obj.get p = .null := by
  simp [get, lookup_eq_none_of_not_mem h]

/-- With distinct properties, a pair of a value other than `Null` is in the object exactly
when `get` returns it. -/
theorem mem_iff_get (hnd : (keys obj).Nodup) (hv : v ≠ .null) : (p, v) ∈ obj ↔ obj.get p = v := by
  rw [← lookup_eq_some_iff_mem hnd]
  constructor
  · exact get_eq_of_lookup
  · intro h
    unfold get at h
    cases hl : obj.lookup p with
    | none => rw [hl] at h; exact absurd h.symm hv
    | some u => rw [hl] at h; exact h ▸ rfl

theorem get_set (obj : Object) (p q : Property) (v : Value) :
    (obj.set p v).get q = if q = p then v else obj.get q := by
  induction obj with
  | nil => simp only [set, get_cons]
  | cons a rest ih =>
    obtain ⟨r, u⟩ := a
    by_cases hr : r = p
    · subst hr
      simp only [set, if_true, get_cons]
      by_cases hq : q = r <;> simp [hq]
    · simp only [set, if_neg hr, get_cons, ih]
      by_cases hq : q = r
      · subst hq
        simp [hr]
      · simp [hq]

theorem mem_keys_set : q ∈ keys (obj.set p v) ↔ q = p ∨ q ∈ keys obj := by
  induction obj with
  | nil => simp [set]
  | cons a rest ih =>
    obtain ⟨r, u⟩ := a
    by_cases hr : r = p
    · subst hr
      simp [set]
    · simp only [set, if_neg hr, keys_cons, List.mem_cons, ih]
      tauto

theorem nodup_keys_set (hnd : (keys obj).Nodup) : (keys (obj.set p v)).Nodup := by
  induction obj with
  | nil => simp [set]
  | cons a rest ih =>
    obtain ⟨r, u⟩ := a
    rw [keys_cons, List.nodup_cons] at hnd
    by_cases hr : r = p
    · subst hr
      simpa [set] using hnd
    · simp only [set, if_neg hr, keys_cons, List.nodup_cons, mem_keys_set, not_or]
      exact ⟨⟨hr, hnd.1⟩, ih hnd.2⟩

theorem keys_remove_sublist (obj : Object) (p : Property) : (keys (obj.remove p)).Sublist (keys obj) := by
  induction obj with
  | nil => simp [remove]
  | cons a rest ih =>
    obtain ⟨r, u⟩ := a
    by_cases hr : r = p
    · simp only [remove, if_pos hr, keys_cons]
      exact List.sublist_cons_self _ _
    · simp only [remove, if_neg hr, keys_cons]
      exact ih.cons_cons _

theorem get_remove (hnd : (keys obj).Nodup) (p q : Property) :
    (obj.remove p).get q = if q = p then .null else obj.get q := by
  induction obj with
  | nil => simp [remove, get]
  | cons a rest ih =>
    obtain ⟨r, u⟩ := a
    rw [keys_cons, List.nodup_cons] at hnd
    by_cases hr : r = p
    · subst hr
      simp only [remove, if_true, get_cons]
      by_cases hq : q = r
      · subst hq
        simp [get_eq_null_of_not_mem hnd.1]
      · simp [hq]
    · simp only [remove, if_neg hr, get_cons, ih hnd.2]
      by_cases hq : q = r
      · subst hq
        simp [hr]
      · simp [hq]

theorem parentId_of_get {n : ℕ} (h : obj.get .parentId = .id n) : obj.parentId = n := by
  simp [parentId, h]

end Object

section Merge

variable {current changes : Object}

theorem merge_cons (current : Object) (e : Property × Value) (changes : Object) :
    merge current (e :: changes) =
      merge (if current.get e.1 = e.2 then current
        else if e.2 ≠ .null then current.set e.1 e.2 else current.remove e.1) changes := rfl

theorem nodup_keys_merge (hnd : (keys current).Nodup) : (keys (merge current changes)).Nodup := by
  induction changes generalizing current with
  | nil => exact hnd
  | cons e changes ih =>
    rw [merge_cons]
    apply ih
    split_ifs
    · exact hnd
    · exact Object.nodup_keys_set hnd
    · exact (Object.keys_remove_sublist _ _).nodup hnd

/-- With distinct properties on both sides, the merged object has each change, and the
current value of every property not changed. -/
theorem get_merge (hnd : (keys current).Nodup) (hch : (keys changes).Nodup) (q : Property) :
    (merge current changes).get q = (changes.lookup q).getD (current.get q) := by
  induction changes generalizing current with
  | nil => rfl
  | cons e changes ih =>
    obtain ⟨p, v⟩ := e
    rw [keys_cons, List.nodup_cons] at hch
    have hstep : (keys (if current.get p = v then current
        else if v ≠ .null then current.set p v else current.remove p)).Nodup := by
      split_ifs
      · exact hnd
      · exact Object.nodup_keys_set hnd
      · exact (Object.keys_remove_sublist _ _).nodup hnd
    rw [merge_cons, ih hstep hch.2, lookup_cons]
    by_cases hq : q = p
    · subst hq
      rw [lookup_eq_none_of_not_mem hch.1]
      simp only [Option.getD_none, if_true, Option.getD_some]
      split_ifs with hg hv
      · exact hg
      · simp [Object.get_set]
      · rw [Object.get_remove hnd, if_pos rfl]
        exact (not_not.mp hv).symm
    · rw [if_neg hq]
      congr 1
      split_ifs
      · rfl
      · simp [Object.get_set, hq]
      · simp [Object.get_remove hnd, hq]

/-- The last change of a property, other than `Null`, is the value the merged object has,
whatever the changes before it. -/
theorem get_merge_append (current changes : Object) {p : Property} {v : Value} (hv : v ≠ .null) :
    (merge current (changes ++ [(p, v)])).get p = v := by
  unfold merge
  rw [List.foldl_append, List.foldl_cons, List.foldl_nil]
  split_ifs with h
  · exact h
  · rw [Object.get_set, if_pos rfl]

theorem get_merge_append_of_ne (current changes : Object) {p q : Property} {v : Value}
    (hv : v ≠ .null) (hq : q ≠ p) :
    (merge current (changes ++ [(p, v)])).get q = (merge current changes).get q := by
  unfold merge
  rw [List.foldl_append, List.foldl_cons, List.foldl_nil]
  split_ifs with h
  · rfl
  · rw [Object.get_set, if_neg hq]

end Merge

namespace Mailboxes

variable {s : Mailboxes} {d e : ℕ} {obj : Object}

theorem get_insert (hd : d ∉ s.ids) (obj : Object) (e : ℕ) :
    (s.insert d obj).get e = if e = d then some obj else s.get e :=
  lookup_append_new hd obj e

theorem ids_insert (s : Mailboxes) (d : ℕ) (obj : Object) : (s.insert d obj).ids = s.ids ++ [d] :=
  keys_append_new s.docs d obj

theorem get_update (s : Mailboxes) (d : ℕ) (obj : Object) (e : ℕ) :
    (s.update d obj).get e = if e = d then (s.get d).map fun _ => obj else s.get e :=
  lookup_replace s.docs d obj e

theorem ids_update (s : Mailboxes) (d : ℕ) (obj : Object) : (s.update d obj).ids = s.ids :=
  keys_replace s.docs d obj

theorem get_erase (s : Mailboxes) (d e : ℕ) : (s.erase d).get e = if e = d then none else s.get e :=
  lookup_filter_ne s.docs d e

theorem get_of_mem_ids (h : d ∈ s.ids) : ∃ obj, s.get d = some obj := lookup_of_mem h

theorem get_eq_none (h : d ∉ s.ids) : s.get d = none := lookup_eq_none_of_not_mem h

theorem not_mem_of_filterEq (h : s.filterEq p v = []) (hd : s.get d = some obj) : (p, v) ∉ obj := by
  intro hmem
  have hin : (d, obj) ∈ s.docs.filter fun e => (p, v) ∈ e.2 :=
    List.mem_filter.mpr ⟨mem_of_lookup_eq_some hd, by simpa using hmem⟩
  have : d ∈ s.filterEq p v := List.mem_map_of_mem (f := Prod.fst) hin
  rw [h] at this
  cases this

/-- The parent of each value of `parentId`: none for the root `0`, the stored parent of
mailbox `d` for `d + 1`, none for a mailbox not stored. -/
def up (s : Mailboxes) : ℕ → Option ℕ
  | 0 => none
  | d + 1 => (s.get d).map Object.parentId

theorem up_zero (s : Mailboxes) : s.up 0 = none := rfl

theorem up_succ (s : Mailboxes) (d : ℕ) : s.up (d + 1) = (s.get d).map Object.parentId := rfl

theorem up_of_ne_zero {v : ℕ} (hv : v ≠ 0) : s.up v = (s.get (v - 1)).map Object.parentId := by
  obtain ⟨d, rfl⟩ := Nat.exists_eq_succ_of_ne_zero hv
  rfl

theorem up_agree {t : Mailboxes} (h : ∀ e, e ≠ d → t.get e = s.get e) (v : ℕ) (hv : v ≠ d + 1) :
    t.up v = s.up v := by
  cases v with
  | zero => rfl
  | succ e => rw [up_succ, up_succ, h e (fun he => hv (he ▸ rfl))]

end Mailboxes

open MailServer.Lib.Forest

/-- A well-formed mailbox set: distinct document ids, objects with distinct properties, a
chain of parents from every mailbox that ends at the root, and no role on two mailboxes. -/
structure WellFormed (s : Mailboxes) : Prop where
  nodup : s.ids.Nodup
  distinct : ∀ d obj, s.get d = some obj → (keys obj).Nodup
  rooted : ∀ d obj, s.get d = some obj → Rooted s.up (· = 0) (d + 1)
  role : ∀ d e od oe r, s.get d = some od → s.get e = some oe → od.get .role = .text r →
    oe.get .role = .text r → d = e

theorem Object.parentId_eq_get {obj : Object} {n : ℕ} (h : obj.parentId = n) (hn : n ≠ 0) :
    obj.get .parentId = .id n := by
  unfold Object.parentId at h
  split at h
  · next m hm => exact hm ▸ h ▸ rfl
  · exact absurd h.symm hn

namespace WellFormed

variable {s : Mailboxes} {d : ℕ} {changes cur : Object}

theorem mem_of_get_role (hwf : WellFormed s) {e : ℕ} {oe : Object} {r : String} (he : s.get e = some oe)
    (h : oe.get .role = .text r) : (.role, .text r) ∈ oe :=
  (Object.mem_iff_get (hwf.distinct e oe he) (by simp)).mpr h

/-- Creating document `d`, new, with an object whose parent's chain ends at the root and
whose role no stored mailbox has. -/
theorem insert (hwf : WellFormed s) (hd : d ∉ s.ids) (hkeys : (Lib.AssocList.keys changes).Nodup)
    (hparent : ∃ p, changes.get .parentId = .id p ∧ Rooted s.up (· = 0) p)
    (hrole : ∀ r, changes.get .role = .text r → ∀ e oe, s.get e = some oe → (.role, .text r) ∉ oe) :
    WellFormed (s.insert d changes) where
  nodup := by
    rw [Mailboxes.ids_insert]
    exact hwf.nodup.append (List.nodup_singleton d) (by simpa using hd)
  distinct e obj he := by
    rw [Mailboxes.get_insert hd] at he
    split_ifs at he
    · cases he
      exact hkeys
    · exact hwf.distinct e obj he
  rooted := by
    have hup := Mailboxes.up_agree (s := s) (t := s.insert d changes) (d := d)
      fun e he => by rw [Mailboxes.get_insert hd, if_neg he]
    obtain ⟨p, hp, hroot⟩ := hparent
    have hnew : Rooted (s.insert d changes).up (· = 0) (d + 1) := by
      have havoid := hroot.avoiding (c := d + 1)
        (by rw [Mailboxes.up_succ, Mailboxes.get_eq_none hd]; rfl) (Nat.succ_ne_zero d)
      refine .up ?_ (havoid.frame hup)
      rw [Mailboxes.up_succ, Mailboxes.get_insert hd, if_pos rfl, Option.map_some,
        Object.parentId_of_get hp]
    intro e obj he
    rw [Mailboxes.get_insert hd] at he
    split_ifs at he with hed
    · exact hed ▸ hnew
    · exact Rooted.repoint hup hnew (hwf.rooted e obj he)
  role a b oa ob r ha hb hra hrb := by
    rw [Mailboxes.get_insert hd] at ha hb
    split_ifs at ha hb with had hbd hbd
    · exact had.trans hbd.symm
    · cases ha
      exact absurd (hwf.mem_of_get_role hb hrb) (hrole r hra b ob hb)
    · cases hb
      exact absurd (hwf.mem_of_get_role ha hra) (hrole r hrb a oa ha)
    · exact hwf.role a b oa ob r ha hb hra hrb

/-- Rewriting stored mailbox `d` with the merge of changes that either leave its parent or
give it a parent whose chain ends at the root without passing `d`, and that give it either its
own role or one no stored mailbox has. -/
theorem update (hwf : WellFormed s) (hcur : s.get d = some cur)
    (hkeys : (Lib.AssocList.keys changes).Nodup)
    (hparent : changes.lookup .parentId = none ∨
      ∃ p, changes.lookup .parentId = some (.id p) ∧ RootedAvoiding s.up (· = 0) (d + 1) p)
    (hrole : ∀ r, changes.lookup .role = some (.text r) → cur.get .role ≠ .text r →
      ∀ e oe, s.get e = some oe → (.role, .text r) ∉ oe) :
    WellFormed (s.update d (merge cur changes)) where
  nodup := by
    rw [Mailboxes.ids_update]
    exact hwf.nodup
  distinct e obj he := by
    rw [Mailboxes.get_update, hcur] at he
    split_ifs at he
    · cases he
      exact nodup_keys_merge (hwf.distinct d cur hcur)
    · exact hwf.distinct e obj he
  rooted := by
    have hget : ∀ e, (s.update d (merge cur changes)).get e =
        if e = d then some (merge cur changes) else s.get e := by
      intro e
      rw [Mailboxes.get_update, hcur]
      rfl
    have hup := Mailboxes.up_agree (s := s) (t := s.update d (merge cur changes)) (d := d)
      fun e he => by rw [hget, if_neg he]
    have hmerge := get_merge (hwf.distinct d cur hcur) hkeys .parentId
    rcases hparent with hnone | ⟨p, hp, havoid⟩
    · -- the parent is left as it is: every parent is the same
      have hsame : (s.update d (merge cur changes)).up = s.up := by
        funext v
        by_cases hv : v = d + 1
        · subst hv
          rw [Mailboxes.up_succ, Mailboxes.up_succ, hget, if_pos rfl, hcur, Option.map_some,
            Option.map_some, Object.parentId, Object.parentId, hmerge, hnone, Option.getD_none]
        · exact hup v hv
      intro e obj he
      rw [hsame]
      rw [hget] at he
      split_ifs at he with hed
      · subst hed
        exact hwf.rooted e cur hcur
      · exact hwf.rooted e obj he
    · -- the new parent's chain does not pass the mailbox
      have hnew : Rooted (s.update d (merge cur changes)).up (· = 0) (d + 1) := by
        refine .up ?_ (havoid.frame hup)
        rw [Mailboxes.up_succ, hget, if_pos rfl, Option.map_some,
          Object.parentId_of_get (by rw [hmerge, hp]; rfl)]
      intro e obj he
      rw [hget] at he
      split_ifs at he with hed
      · exact hed ▸ hnew
      · exact Rooted.repoint hup hnew (hwf.rooted e obj he)
  role a b oa ob r ha hb hra hrb := by
    have hmerge := get_merge (hwf.distinct d cur hcur) hkeys .role
    have hnew : ∀ e oe, e ≠ d → s.get e = some oe → (merge cur changes).get .role = .text r →
        oe.get .role = .text r → False := by
      intro e oe hed he hm ho
      rw [hmerge] at hm
      cases hl : changes.lookup .role with
      | none =>
        rw [hl, Option.getD_none] at hm
        exact hed (hwf.role e d oe cur r he hcur ho hm)
      | some v =>
        rw [hl, Option.getD_some] at hm
        subst hm
        by_cases hc : cur.get .role = .text r
        · exact hed (hwf.role e d oe cur r he hcur ho hc)
        · exact hrole r hl hc e oe he (hwf.mem_of_get_role he ho)
    rw [Mailboxes.get_update, hcur] at ha hb
    split_ifs at ha hb with had hbd hbd
    · exact had.trans hbd.symm
    · cases ha
      exact (hnew b ob hbd hb hra hrb).elim
    · cases hb
      exact (hnew a oa had ha hrb hra).elim
    · exact hwf.role a b oa ob r ha hb hra hrb

theorem erase (hwf : WellFormed s) (hchild : s.filterEq .parentId (.id (d + 1)) = []) :
    WellFormed (s.erase d) where
  nodup := (keys_filter_sublist s.docs _).nodup hwf.nodup
  distinct e obj he := by
    rw [Mailboxes.get_erase] at he
    split_ifs at he
    exact hwf.distinct e obj he
  rooted e obj he := by
    rw [Mailboxes.get_erase] at he
    split_ifs at he with hed
    have hup := Mailboxes.up_agree (s := s) (t := s.erase d) (d := d)
      fun f hf => by rw [Mailboxes.get_erase, if_neg hf]
    have hnochild : ∀ u, s.up u ≠ some (d + 1) := by
      intro u hu
      cases u with
      | zero => cases hu
      | succ f =>
        rw [Mailboxes.up_succ] at hu
        cases hf : s.get f with
        | none => rw [hf] at hu; cases hu
        | some of =>
          rw [hf, Option.map_some, Option.some.injEq] at hu
          have hget := Object.parentId_eq_get hu (Nat.succ_ne_zero d)
          exact Mailboxes.not_mem_of_filterEq hchild hf
            ((Object.mem_iff_get (hwf.distinct f of hf) (by simp)).mpr hget)
    exact ((hwf.rooted e obj he).avoiding_of_no_child hnochild
      (fun h => hed (Nat.succ_injective h))).frame hup
  role a b oa ob r ha hb hra hrb := by
    rw [Mailboxes.get_erase] at ha hb
    split_ifs at ha hb
    exact hwf.role a b oa ob r ha hb hra hrb

end WellFormed

/-! ## What `mailbox_set_item` accepts -/

open MailServer.Lib.Fallible

section ItemSpec

variable {cfg : Config} {ctx : SetContext} {s : Mailboxes} {update : Option (ℕ × Object)}

theorem parseChanges_sublist {request changes : Object}
    (h : parseChanges cfg ctx update request = .ok changes) :
    (keys changes).Sublist (keys request) := by
  induction request generalizing changes with
  | nil =>
    cases h
    exact List.Sublist.slnil
  | cons e rest ih =>
    obtain ⟨value, -, h⟩ := bind_eq_ok.mp h
    obtain ⟨changes', hrest, h⟩ := bind_eq_ok.mp h
    cases value with
    | none =>
      cases h
      exact (ih hrest).cons _
    | some value =>
      cases h
      exact (ih hrest).cons_cons _

theorem parseChanges_mem {request changes : Object}
    (h : parseChanges cfg ctx update request = .ok changes) {p : Property} {v : Value}
    (hv : (p, v) ∈ changes) :
    ∃ w, (p, w) ∈ request ∧ parseProperty cfg ctx update p w = .ok (some v) := by
  induction request generalizing changes with
  | nil =>
    cases h
    cases hv
  | cons e rest ih =>
    obtain ⟨q, w⟩ := e
    obtain ⟨value, hvalue, h⟩ := bind_eq_ok.mp h
    obtain ⟨changes', hrest, h⟩ := bind_eq_ok.mp h
    have hrest' : ∀ {x}, (p, x) ∈ rest → (p, x) ∈ (q, w) :: rest := List.mem_cons_of_mem _
    cases value with
    | none =>
      cases h
      obtain ⟨x, hx, hp⟩ := ih hrest hv
      exact ⟨x, hrest' hx, hp⟩
    | some value =>
      cases h
      rcases List.mem_cons.mp hv with heq | hv
      · cases heq
        exact ⟨w, List.mem_cons_self, hvalue⟩
      · obtain ⟨x, hx, hp⟩ := ih hrest hv
        exact ⟨x, hrest' hx, hp⟩

theorem parseProperty_parentId {w v : Value}
    (h : parseProperty cfg ctx update .parentId w = .ok (some v)) : ∃ n, v = .id n := by
  cases w with
  | null =>
    cases h
    exact ⟨0, rfl⟩
  | id n =>
    simp only [parseProperty] at h
    split_ifs at h
    cases h
    exact ⟨n + 1, rfl⟩
  | _ => cases h

theorem parseProperty_role {w v : Value}
    (h : parseProperty cfg ctx update .role w = .ok (some v)) :
    v = .null ∨ ∃ r ∈ roles, v = .text r := by
  cases w with
  | null =>
    cases h
    exact .inl rfl
  | text t =>
    simp only [parseProperty] at h
    split_ifs at h with hr
    cases h
    exact .inr ⟨_, hr, rfl⟩
  | _ => cases h

/-- A walk that succeeds has followed the chain from the new parent up to the root without
meeting the mailbox itself, once every mailbox id of the context is stored. -/
theorem walkParent_rooted (hsub : ∀ x ∈ ctx.mailboxIds, x ∈ s.ids) {c : ℕ} :
    ∀ {depth fuel p : ℕ}, walkParent ctx s c depth fuel p = .ok () →
      RootedAvoiding s.up (· = 0) c p := by
  intro depth fuel
  induction fuel generalizing depth with
  | zero => intro p h; cases h
  | succ fuel ih =>
    intro p h
    rw [walkParent] at h
    by_cases hc : p = c
    · rw [if_pos hc] at h
      cases h
    rw [if_neg hc] at h
    by_cases h0 : p = 0
    · exact .root hc h0
    rw [if_neg h0] at h
    rcases hg : s.get (p - 1) with _ | fields
    · -- a parent in the context but not stored cannot be
      simp only [hg] at h
      have hmem : p - 1 ∈ ctx.mailboxIds := by
        by_contra hn
        rw [if_neg hn] at h
        cases h
      obtain ⟨obj, hobj⟩ := Mailboxes.get_of_mem_ids (hsub _ hmem)
      rw [hg] at hobj
      cases hobj
    · simp only [hg] at h
      have hw : walkParent ctx s c (depth + 1) fuel fields.parentId = .ok () := by
        split_ifs at h
        exact h
      refine .up hc ?_ (ih hw)
      rw [Mailboxes.up_of_ne_zero h0, hg]
      rfl

theorem checkParent_spec (hsub : ∀ x ∈ ctx.mailboxIds, x ∈ s.ids) {changes changes' : Object}
    (hvals : ∀ v, (Property.parentId, v) ∈ changes → ∃ n, v = .id n)
    (h : checkParent cfg ctx s update changes = .ok changes') :
    (changes' = changes ∧ ∃ p, changes.get .parentId = .id p ∧
      RootedAvoiding s.up (· = 0) (currentMailboxId update) p) ∨
    (changes.lookup .parentId = none ∧
      changes' = if update.isNone then changes ++ [(.parentId, .id 0)] else changes) := by
  unfold checkParent at h
  cases hg : changes.get .parentId with
  | id p =>
    simp only [hg] at h
    obtain ⟨u, hw, rfl⟩ := map_eq_ok.mp h
    exact .inl ⟨rfl, p, rfl, walkParent_rooted hsub hw⟩
  | _ =>
    simp only [hg, Except.ok.injEq] at h
    refine .inr ⟨?_, h.symm⟩
    cases hl : changes.lookup .parentId with
    | none => rfl
    | some v =>
      obtain ⟨n, rfl⟩ := hvals v (mem_of_lookup_eq_some hl)
      rw [Object.get_eq_of_lookup hl] at hg
      cases hg

theorem checkRole_spec {changes : Object} (h : checkRole s update changes = .ok ()) {r : String}
    (hr : changes.get .role = .text r) (hc : currentRole update ≠ r) :
    ∀ e oe, s.get e = some oe → (.role, .text r) ∉ oe := by
  unfold checkRole at h
  rw [hr] at h
  simp only [if_pos hc] at h
  split_ifs at h with hf
  exact fun e oe he => Mailboxes.not_mem_of_filterEq (not_not.mp hf) he

end ItemSpec

/-- What a create or an update accepted by `mailbox_set_item` writes: distinct properties; the
parent unchanged, or a new one whose chain ends at the root without passing the mailbox; a
parent on every create; a role from the list, and a new role one no stored mailbox has. -/
structure ItemFacts (s : Mailboxes) (update : Option (ℕ × Object)) (changes : Object) : Prop where
  distinct : (keys changes).Nodup
  parent : changes.lookup .parentId = none ∨ ∃ p, changes.lookup .parentId = some (.id p) ∧
    RootedAvoiding s.up (· = 0) (currentMailboxId update) p
  parent_create : update = none → changes.lookup .parentId ≠ none
  role_mem : ∀ r, changes.lookup .role = some (.text r) → r ∈ roles
  role_free : ∀ r, changes.lookup .role = some (.text r) → currentRole update ≠ r →
    ∀ e oe, s.get e = some oe → (.role, .text r) ∉ oe

theorem lookup_eq_of_get {obj : Object} {p : Property} {v : Value} (h : obj.get p = v)
    (hv : v ≠ .null) : obj.lookup p = some v := by
  unfold Object.get at h
  cases hl : obj.lookup p with
  | none => rw [hl] at h; exact absurd h.symm hv
  | some u => rw [hl] at h; exact h ▸ rfl

/-- `mailbox_set_item` on a request object with distinct properties, once every mailbox id of
the context is stored. -/
theorem mailboxSetItem_facts {cfg : Config} {ctx : SetContext} {s : Mailboxes}
    {update : Option (ℕ × Object)} {request changes : Object}
    (hsub : ∀ x ∈ ctx.mailboxIds, x ∈ s.ids) (hreq : (keys request).Nodup)
    (h : mailboxSetItem cfg ctx s request update = .ok changes) : ItemFacts s update changes := by
  obtain ⟨changes₀, hparse, h⟩ := bind_eq_ok.mp h
  obtain ⟨changes₁, hparent, h⟩ := bind_eq_ok.mp h
  obtain ⟨_, hrole, h⟩ := bind_eq_ok.mp h
  obtain ⟨_, -, h⟩ := bind_eq_ok.mp h
  obtain ⟨_, -, h⟩ := bind_eq_ok.mp h
  cases h
  have hnd₀ : (keys changes₀).Nodup := (parseChanges_sublist hparse).nodup hreq
  have hvals : ∀ v, (Property.parentId, v) ∈ changes₀ → ∃ n, v = .id n := fun v hv => by
    obtain ⟨w, -, hw⟩ := parseChanges_mem hparse hv
    exact parseProperty_parentId hw
  have hroles : ∀ r, changes₀.lookup .role = some (.text r) → r ∈ roles := fun r hr => by
    obtain ⟨w, -, hw⟩ := parseChanges_mem hparse (mem_of_lookup_eq_some hr)
    rcases parseProperty_role hw with h | ⟨r', hr', h⟩
    · cases h
    · cases h
      exact hr'
  rcases checkParent_spec hsub hvals hparent with ⟨rfl, p, hp, havoid⟩ | ⟨hnone, rfl⟩
  · -- a `parentId` change, checked by the walk
    have hl := lookup_eq_of_get hp (by simp)
    exact {
      distinct := hnd₀
      parent := .inr ⟨p, hl, havoid⟩
      parent_create := fun _ => by simp [hl]
      role_mem := hroles
      role_free := fun r hr hc => checkRole_spec hrole (Object.get_eq_of_lookup hr) hc }
  · -- no `parentId` change: a create gets the root
    have hnot : Property.parentId ∉ keys changes₀ := fun hm => by
      obtain ⟨v, hv⟩ := lookup_of_mem hm
      rw [hnone] at hv
      cases hv
    cases update with
    | none =>
      show ItemFacts s none (changes₀ ++ [(Property.parentId, Value.id 0)])
      have hlook : ∀ k, (changes₀ ++ [(Property.parentId, Value.id 0)]).lookup k =
          if k = .parentId then some (.id 0) else changes₀.lookup k :=
        lookup_append_new hnot _
      have hrole_eq : (changes₀ ++ [(Property.parentId, Value.id 0)]).lookup .role =
          changes₀.lookup .role := by
        rw [hlook, if_neg (by simp)]
      refine {
        distinct := ?_
        parent := .inr ⟨0, by rw [hlook, if_pos rfl], .root (by simp [currentMailboxId, u32Max]) rfl⟩
        parent_create := fun _ => by rw [hlook, if_pos rfl]; simp
        role_mem := fun r hr => hroles r (hrole_eq ▸ hr)
        role_free := fun r hr hc => checkRole_spec hrole
          (Object.get_eq_of_lookup (hrole_eq ▸ hr)) hc }
      rw [keys_append_new]
      exact hnd₀.append (List.nodup_singleton _) (by simpa using hnot)
    | some current =>
      show ItemFacts s (some current) changes₀
      exact {
        distinct := hnd₀
        parent := .inl hnone
        parent_create := fun h => by cases h
        role_mem := hroles
        role_free := fun r hr hc => checkRole_spec hrole (Object.get_eq_of_lookup hr) hc }

theorem ItemFacts.role_ne_empty {s : Mailboxes} {update : Option (ℕ × Object)} {changes : Object}
    (hf : ItemFacts s update changes) {r : String} (hr : changes.lookup .role = some (.text r)) :
    r ≠ "" := by
  have hmem := hf.role_mem r hr
  rintro rfl
  simp [roles] at hmem

theorem ItemFacts.create_parent {s : Mailboxes} {changes : Object} (hf : ItemFacts s none changes) :
    ∃ p, changes.get .parentId = .id p ∧ Rooted s.up (· = 0) p := by
  rcases hf.parent with hnone | ⟨p, hl, havoid⟩
  · exact absurd hnone (hf.parent_create rfl)
  · exact ⟨p, Object.get_eq_of_lookup hl, havoid.rooted⟩

/-- An accepted create has a role no stored mailbox has: its current role is `""`, which is
no role of the list. -/
theorem ItemFacts.create_role {s : Mailboxes} {changes : Object} (hf : ItemFacts s none changes) :
    ∀ r, changes.get .role = .text r → ∀ e oe, s.get e = some oe → (.role, .text r) ∉ oe := by
  intro r hr
  have hl := lookup_eq_of_get hr (by simp)
  exact hf.role_free r hl fun h => hf.role_ne_empty hl h.symm

theorem ItemFacts.update_role {s : Mailboxes} {d : ℕ} {cur changes : Object}
    (hf : ItemFacts s (some (d, cur)) changes) :
    ∀ r, changes.lookup .role = some (.text r) → cur.get .role ≠ .text r →
      ∀ e oe, s.get e = some oe → (.role, .text r) ∉ oe := by
  intro r hr hcur
  refine hf.role_free r hr ?_
  cases hg : cur.get .role with
  | text r' =>
    simp only [currentRole, hg]
    exact fun h => hcur (h ▸ hg)
  | _ =>
    simp only [currentRole, hg]
    exact fun h => hf.role_ne_empty hr h.symm

/-! ## The loops of `mailbox_set` -/

section Steps

variable {cfg : Config} {assign : Mailboxes → ℕ}

/-- What one create can do: leave the context and the store as they are, or write the
accepted changes under the assigned id and add that id to the context. -/
theorem createOne_cases (ctx : SetContext) (s : Mailboxes) (resp : Response) (item : String × Object) :
    ((createOne cfg assign (ctx, s, resp) item).1 = ctx ∧
      (createOne cfg assign (ctx, s, resp) item).2.1 = s) ∨
    ∃ changes, mailboxSetItem cfg ctx s item.2 none = .ok changes ∧
      (createOne cfg assign (ctx, s, resp) item).1 =
        { ctx with mailboxIds := ctx.mailboxIds ++ [assign s] } ∧
      (createOne cfg assign (ctx, s, resp) item).2.1 = s.insert (assign s) changes := by
  rcases hi : mailboxSetItem cfg ctx s item.2 none with e | changes
  · exact .inl (by simp [createOne, hi])
  · by_cases hgone : parentGone s changes
    · exact .inl (by simp [createOne, hi, hgone])
    · exact .inr ⟨changes, rfl, by simp [createOne, hi, hgone]⟩

/-- What one update can do: leave the store as it is, or merge the accepted changes into a
stored mailbox. -/
theorem updateOne_cases (ctx : SetContext) (s : Mailboxes) (resp : Response) (d : ℕ)
    (request : Object) :
    (updateOne cfg ctx (s, resp) (d, request)).1 = s ∨
    ∃ mailbox changes, s.get d = some mailbox ∧
      mailboxSetItem cfg ctx s request (some (d, mailbox)) = .ok changes ∧
      (updateOne cfg ctx (s, resp) (d, request)).1 = s.update d (merge mailbox changes) := by
  by_cases hw : d ∈ ctx.willDestroy
  · exact .inl (by simp [updateOne, hw])
  rcases hg : s.get d with _ | mailbox
  · exact .inl (by simp [updateOne, hw, hg])
  by_cases hacl : ctx.caller.isShared = true ∧ Acl.modify ∉ ctx.caller.acl mailbox
  · exact .inl (by simp [updateOne, hw, hg, hacl])
  by_cases hadm : ctx.caller.isShared = true ∧ Property.acl ∈ keys request ∧
      Acl.administer ∉ ctx.caller.acl mailbox
  · exact .inl (by simp only [updateOne, hg, if_neg hw, if_neg hacl, if_pos hadm])
  rcases hi : mailboxSetItem cfg ctx s request (some (d, mailbox)) with e | changes
  · exact .inl (by simp [updateOne, hw, hg, hacl, hadm, hi])
  by_cases hgone : parentGone s changes
  · exact .inl (by simp [updateOne, hw, hg, hacl, hadm, hi, hgone])
  · exact .inr ⟨mailbox, changes, rfl, hi, by simp [updateOne, hw, hg, hacl, hadm, hi, hgone]⟩

theorem mailboxDestroy_ok {caller : Caller} {hasEmails : ℕ → Bool} {removeEmails : Bool}
    {s s' : Mailboxes} {d : ℕ} (h : mailboxDestroy caller hasEmails removeEmails s d = .ok s') :
    s.filterEq .parentId (.id (d + 1)) = [] ∧ s' = s.erase d := by
  unfold mailboxDestroy at h
  by_cases hsys : d ∈ [inboxId, trashId, junkId] ∧ caller.deleteSystemFolders = false
  · rw [if_pos hsys] at h
    cases h
  rw [if_neg hsys] at h
  by_cases hchild : s.filterEq .parentId (.id (d + 1)) ≠ []
  · rw [if_pos hchild] at h
    cases h
  rw [if_neg hchild] at h
  refine ⟨not_not.mp hchild, ?_⟩
  by_cases hmail : hasEmails d = true ∧ removeEmails = false
  · rw [if_pos hmail] at h
    cases h
  rw [if_neg hmail] at h
  rcases hg : s.get d with _ | mailbox
  · simp only [hg] at h
    cases h
  · simp only [hg] at h
    split_ifs at h <;> exact (Except.ok.inj h).symm

theorem destroyOne_cases (caller : Caller) (hasEmails : ℕ → Bool) (removeEmails : Bool)
    (s : Mailboxes) (resp : Response) (d : ℕ) :
    (destroyOne caller hasEmails removeEmails (s, resp) d).1 = s ∨
    (s.filterEq .parentId (.id (d + 1)) = [] ∧
      (destroyOne caller hasEmails removeEmails (s, resp) d).1 = s.erase d) := by
  rcases hd : mailboxDestroy caller hasEmails removeEmails s d with e | s'
  · exact .inl (by simp [destroyOne, hd])
  · obtain ⟨hchild, rfl⟩ := mailboxDestroy_ok hd
    exact .inr ⟨hchild, by simp [destroyOne, hd]⟩

end Steps

/-- What the create loop keeps: a well-formed store that holds every mailbox id of the
context, so that a parent found in the context is stored. -/
structure Ready (ctx : SetContext) (s : Mailboxes) : Prop where
  wf : WellFormed s
  sub : ∀ x ∈ ctx.mailboxIds, x ∈ s.ids

section Run

variable {cfg : Config} {assign : Mailboxes → ℕ}

open MailServer.Lib.Fallible

theorem ready_createOne (hassign : ∀ s, assign s ∉ s.ids) {st : SetContext × Mailboxes × Response}
    (h : Ready st.1 st.2.1) {item : String × Object} (hitem : (keys item.2).Nodup) :
    Ready (createOne cfg assign st item).1 (createOne cfg assign st item).2.1 := by
  obtain ⟨ctx, s, resp⟩ := st
  rcases createOne_cases ctx s resp item with ⟨hc, hs⟩ | ⟨changes, hi, hc, hs⟩
  · rw [hc, hs]
    exact h
  · rw [hc, hs]
    have hf := mailboxSetItem_facts h.sub hitem hi
    refine ⟨h.wf.insert (hassign s) hf.distinct hf.create_parent hf.create_role, fun x hx => ?_⟩
    rw [Mailboxes.ids_insert]
    rcases List.mem_append.mp hx with hx | hx
    · exact List.mem_append_left _ (h.sub x hx)
    · exact List.mem_append_right _ hx

theorem ready_updateOne {ctx : SetContext} {st : Mailboxes × Response} (h : Ready ctx st.1)
    {item : ℕ × Object} (hitem : (keys item.2).Nodup) : Ready ctx (updateOne cfg ctx st item).1 := by
  obtain ⟨s, resp⟩ := st
  obtain ⟨d, request⟩ := item
  rcases updateOne_cases ctx s resp d request with hs | ⟨mailbox, changes, hg, hi, hs⟩
  · rw [hs]
    exact h
  · rw [hs]
    have hf := mailboxSetItem_facts h.sub hitem hi
    refine ⟨h.wf.update hg hf.distinct hf.parent hf.update_role, ?_⟩
    rw [Mailboxes.ids_update]
    exact h.sub

theorem wellFormed_destroyOne {caller : Caller} {hasEmails : ℕ → Bool} {removeEmails : Bool}
    {st : Mailboxes × Response} (h : WellFormed st.1) (d : ℕ) :
    WellFormed (destroyOne caller hasEmails removeEmails st d).1 := by
  obtain ⟨s, resp⟩ := st
  rcases destroyOne_cases caller hasEmails removeEmails s resp d with hs | ⟨hchild, hs⟩
  · rw [hs]
    exact h
  · rw [hs]
    exact h.erase hchild

/-- An allocator that gives each batch a document id above every stored one. -/
def freshId (s : Mailboxes) : ℕ := s.ids.sum + 1

theorem freshId_not_mem (s : Mailboxes) : freshId s ∉ s.ids := fun h => by
  have hle := List.le_sum_of_mem h
  unfold freshId at hle
  omega

/-- The store's allocator: the id that the write batch creating one document is given, over
the collection's document ids (`Store.DocumentId.commit`). -/
def storeAssign (choices : ℕ → ℕ) (s : Mailboxes) : ℕ :=
  ((Store.DocumentId.commit choices (.ofList (s.ids.map UInt32.ofNat))
    Store.DocumentId.createDocument).assigned.headD 0).toNat

/-- While the stored ids stay at most `maxId`, with `maxId + 100` below `u32::MAX`, the store's
allocator gives an id that is not stored: the freshness the runs below take of `assign`. -/
theorem storeAssign_not_mem (choices : ℕ → ℕ) {s : Mailboxes} {maxId : ℕ} (hmax : ∀ d ∈ s.ids, d ≤ maxId)
    (hbound : maxId + 100 < 2 ^ 32 - 1) : storeAssign choices s ∉ s.ids := by
  have hbitmap : ∀ id ∈ (Store.DocumentId.Bitmap.ofList (s.ids.map UInt32.ofNat)).ids, id.toNat ≤ maxId := by
    intro id hid
    obtain ⟨d, hd, rfl⟩ := List.mem_map.mp (Store.DocumentId.Bitmap.mem_ofList.mp hid)
    rw [UInt32.toNat_ofNat']
    exact (Nat.mod_le _ _).trans (hmax d hd)
  have hops : ([[]] : List (List Store.DocumentId.Operation)).flatMap (Store.DocumentId.createDocument ++ ·) =
      Store.DocumentId.createDocument := by
    simp
  obtain ⟨hlen, -, hfresh⟩ :=
    @Store.DocumentId.commit_assigns_fresh choices _ maxId hbitmap [[]] (by simp) (by simpa using hbound)
  rw [hops] at hlen hfresh
  obtain ⟨v, hv⟩ := List.length_eq_one_iff.mp hlen
  intro hmem
  rw [storeAssign, hv, List.headD_cons] at hmem
  exact (hfresh v (by rw [hv]; exact List.mem_singleton_self v)).1
    (Store.DocumentId.Bitmap.mem_ofList.mpr (List.mem_map.mpr ⟨v.toNat, hmem, UInt32.ofNat_toNat⟩))

theorem storeAssign_not_mem_two :
    storeAssign (fun _ => 0) ⟨[(1, []), (2, [(.name, .text "Archive")])]⟩ ∉
      Mailboxes.ids ⟨[(1, []), (2, [(.name, .text "Archive")])]⟩ :=
  @storeAssign_not_mem (fun _ => 0) _ 2 (by decide) (by norm_num)

theorem WellFormed.empty : WellFormed ⟨[]⟩ where
  nodup := List.nodup_nil
  distinct _ _ h := by cases h
  rooted _ _ h := by cases h
  role _ _ _ _ _ h := by cases h

theorem wellFormed_mailboxSet (hassign : ∀ s, assign s ∉ s.ids) {caller : Caller}
    {hasEmails : ℕ → Bool} {s : Mailboxes} {req : Request} (hwf : WellFormed s)
    (hcreate : ∀ item ∈ req.create, (keys item.2).Nodup)
    (hupdate : ∀ item ∈ req.update, (keys item.2).Nodup) :
    WellFormed (mailboxSet cfg assign caller hasEmails s req).1 := by
  have hcreated :=
    foldl_invariant (P := fun st : SetContext × Mailboxes × Response => Ready st.1 st.2.1) (l := req.create)
    (f := createOne cfg assign) (fun _ item hitem h => ready_createOne hassign h (hcreate item hitem))
    (s := (⟨caller, s.ids, req.destroy⟩, s, .empty)) ⟨hwf, fun _ hx => hx⟩
  rcases hc : req.create.foldl (createOne cfg assign) (⟨caller, s.ids, req.destroy⟩, s, .empty) with
    ⟨ctx, s₁, resp₁⟩
  rw [hc] at hcreated
  simp only [mailboxSet, hc]
  have hupdated := foldl_invariant (P := fun st : Mailboxes × Response => Ready ctx st.1) (l := req.update)
    (f := updateOne cfg ctx) (fun _ item hitem h => ready_updateOne h (hupdate item hitem))
    (s := (s₁, resp₁)) hcreated
  exact foldl_invariant (P := fun st : Mailboxes × Response => WellFormed st.1)
    (fun _ d _ h => wellFormed_destroyOne h d)
    hupdated.wf

def exampleConfig : Config := ⟨10, 255, id, fun _ value => .ok value⟩

def exampleCaller : Caller := ⟨1, false, fun _ => [], false⟩

/-- A request that creates an inbox. -/
def exampleRequest : Request := ⟨[("a", [(.name, .text "Inbox"), (.role, .text "inbox")])], [], [], false⟩

/-- One `Mailbox/set` call on the account, by any caller, whose objects repeat no property. -/
inductive SetStep (cfg : Config) (assign : Mailboxes → ℕ) : Mailboxes → Mailboxes → Prop
  | set {s : Mailboxes} (caller : Caller) (hasEmails : ℕ → Bool) (req : Request)
      (hcreate : ∀ item ∈ req.create, (keys item.2).Nodup)
      (hupdate : ∀ item ∈ req.update, (keys item.2).Nodup) :
      SetStep cfg assign s (mailboxSet cfg assign caller hasEmails s req).1

theorem WellFormed.of_run (hassign : ∀ s, assign s ∉ s.ids) {s₀ s : Mailboxes}
    (h₀ : WellFormed s₀) (hrun : Relation.ReflTransGen (SetStep cfg assign) s₀ s) : WellFormed s := by
  induction hrun with
  | refl => exact h₀
  | tail _ hstep ih =>
    cases hstep with
    | set caller hasEmails req hcreate hupdate => exact wellFormed_mailboxSet hassign ih hcreate hupdate

/-- The mailbox set after the requests of one caller, one after the other. -/
def runRequests (cfg : Config) (assign : Mailboxes → ℕ) (caller : Caller) (hasEmails : ℕ → Bool)
    (s : Mailboxes) (reqs : List Request) : Mailboxes :=
  reqs.foldl (fun s req => (mailboxSet cfg assign caller hasEmails s req).1) s

theorem reflTransGen_runRequests {caller : Caller} {hasEmails : ℕ → Bool} {reqs : List Request}
    (hreqs : ∀ req ∈ reqs, (∀ item ∈ req.create, (keys item.2).Nodup) ∧
      ∀ item ∈ req.update, (keys item.2).Nodup) (s : Mailboxes) :
    Relation.ReflTransGen (SetStep cfg assign) s (runRequests cfg assign caller hasEmails s reqs) := by
  induction reqs generalizing s with
  | nil => exact .refl
  | cons req reqs ih =>
    have hreq := hreqs req List.mem_cons_self
    exact .head (.set caller hasEmails req hreq.1 hreq.2)
      (ih (fun r hr => hreqs r (List.mem_cons_of_mem req hr)) _)

/-- `Archive` at the root, `2024` under it and `Q1` under `2024`, created one request after the
other; the allocator gives them the ids 1, 2 and 4. -/
def archiveRequests : List Request :=
  [⟨[("a", [(.name, .text "Archive")])], [], [], false⟩,
    ⟨[("b", [(.name, .text "2024"), (.parentId, .id 1)])], [], [], false⟩,
    ⟨[("c", [(.name, .text "Q1"), (.parentId, .id 2)])], [], [], false⟩]

def archiveMailboxes : Mailboxes :=
  runRequests exampleConfig freshId exampleCaller (fun _ => false) ⟨[]⟩ archiveRequests

theorem archiveMailboxes_wellFormed : WellFormed archiveMailboxes :=
  WellFormed.of_run freshId_not_mem WellFormed.empty (reflTransGen_runRequests (by decide) _)

/-- A request that renames `2024` and destroys `Q1`. -/
def archiveUpdate : Request := ⟨[], [(2, [(.name, .text "2023")])], [4], false⟩

/-- `mailbox_set` keeps the mailbox set well formed, for requests whose objects repeat no
property and a store that gives each batch a new document id. -/
theorem mailboxSet_wellFormed (hassign : ∀ s, assign s ∉ s.ids) {caller : Caller}
    {hasEmails : ℕ → Bool} {s : Mailboxes} {req : Request} (hwf : WellFormed s)
    (hcreate : ∀ item ∈ req.create, (keys item.2).Nodup)
    (hupdate : ∀ item ∈ req.update, (keys item.2).Nodup) :
    WellFormed (mailboxSet cfg assign caller hasEmails s req).1 :=
  wellFormed_mailboxSet hassign hwf hcreate hupdate

theorem mailboxSet_wellFormed_example :
    WellFormed (mailboxSet exampleConfig freshId exampleCaller (fun _ => false) archiveMailboxes archiveUpdate).1 :=
  mailboxSet_wellFormed freshId_not_mem archiveMailboxes_wellFormed (by decide) (by decide)

theorem WellFormed.parent_stored {s : Mailboxes} (hwf : WellFormed s) {d : ℕ} {obj : Object}
    (hd : s.get d = some obj) : obj.parentId = 0 ∨ ∃ parent, s.get (obj.parentId - 1) = some parent := by
  cases hwf.rooted d obj hd with
  | root h => cases h
  | @up _ w hup hw =>
    rw [Mailboxes.up_succ, hd, Option.map_some, Option.some.injEq] at hup
    subst hup
    cases hw with
    | root h => exact .inl h
    | @up _ u hup' _ =>
      right
      have h0 : obj.parentId ≠ 0 := by
        intro h
        rw [h, Mailboxes.up_zero] at hup'
        cases hup'
      rw [Mailboxes.up_of_ne_zero h0] at hup'
      cases hg : s.get (obj.parentId - 1) with
      | none =>
        rw [hg] at hup'
        cases hup'
      | some parent => exact ⟨parent, rfl⟩

/-- After any run of `Mailbox/set` calls whose objects repeat no property, from a well-formed
mailbox set, the parent of every mailbox is the root or a stored mailbox, and no mailbox is
its own ancestor. -/
theorem mailboxTree_acyclic (hassign : ∀ s, assign s ∉ s.ids) {s₀ s : Mailboxes}
    (h₀ : WellFormed s₀) (hrun : Relation.ReflTransGen (SetStep cfg assign) s₀ s) {d : ℕ}
    {obj : Object} (hd : s.get d = some obj) :
    (obj.parentId = 0 ∨ ∃ parent, s.get (obj.parentId - 1) = some parent) ∧
      ¬Ancestor s.up (d + 1) (d + 1) := by
  have hwf := WellFormed.of_run hassign h₀ hrun
  refine ⟨hwf.parent_stored hd, ?_⟩
  exact (hwf.rooted d obj hd).not_ancestor_self (by rintro v rfl; rfl)

theorem mailboxTree_acyclic_example :
    let s := runRequests exampleConfig freshId exampleCaller (fun _ => false) ⟨[]⟩
      (archiveRequests ++ [archiveUpdate])
    let renamed : Object := [(.name, .text "2023"), (.parentId, .id 2)]
    (renamed.parentId = 0 ∨ ∃ parent, s.get (renamed.parentId - 1) = some parent) ∧
      ¬Ancestor s.up (2 + 1) (2 + 1) :=
  mailboxTree_acyclic freshId_not_mem WellFormed.empty (reflTransGen_runRequests (by decide) _) (by decide)

end Run

/-! ## A `parentId` given twice -/

section Repeated

variable {cfg : Config} {assign : Mailboxes → ℕ}

theorem parseChanges_parentIds {ctx : SetContext} {update : Option (ℕ × Object)} (ids : List ℕ)
    (hids : ∀ b ∈ ids, b ∉ ctx.willDestroy ∧ b ∈ ctx.mailboxIds) :
    parseChanges cfg ctx update (ids.map fun b => (.parentId, .id b)) =
      .ok (ids.map fun b => (.parentId, .id (b + 1))) := by
  induction ids with
  | nil => rfl
  | cons b ids ih =>
    have hb := hids b List.mem_cons_self
    simp [parseChanges, parseProperty, hb.1, hb.2,
      ih fun c hc => hids c (List.mem_cons_of_mem b hc)]

theorem get_parentIds {p : Property} (hp : p ≠ .parentId) (ids : List ℕ) (f : ℕ → Value) :
    Object.get (ids.map fun b => (Property.parentId, f b)) p = .null := by
  induction ids with
  | nil => rfl
  | cons b ids ih => rw [List.map_cons, Object.get_cons, if_neg hp, ih]

theorem lookup_parentIds {p : Property} (hp : p ≠ .parentId) (ids : List ℕ) (f : ℕ → Value) :
    (ids.map fun b => (Property.parentId, f b)).lookup p = none := by
  induction ids with
  | nil => rfl
  | cons b ids ih => rw [List.map_cons, lookup_cons, if_neg hp, ih]

/-- `mailbox_set_item` on an owner's update of mailbox `a` that names the root and then any
stored mailboxes: the checks read the root, and every value is kept. -/
theorem mailboxSetItem_root_then {caller : Caller} {s : Mailboxes} {a : ℕ} {objA : Object}
    {t : String} (ids : List ℕ) (hdepth : 0 < cfg.maxDepth) (hids : ∀ b ∈ ids, b ∈ s.ids)
    (hname : objA.get .name = .text t) (ht : trim t ≠ "") (howner : caller.isShared = false) :
    mailboxSetItem cfg ⟨caller, s.ids, []⟩ s ((.parentId, .null) :: ids.map fun b => (.parentId, .id b))
      (some (a, objA)) = .ok ((.parentId, .id 0) :: ids.map fun b => (.parentId, .id (b + 1))) := by
  have hparse : parseChanges cfg ⟨caller, s.ids, []⟩ (some (a, objA))
      ((.parentId, .null) :: ids.map fun b => (.parentId, .id b)) =
        .ok ((.parentId, .id 0) :: ids.map fun b => (.parentId, .id (b + 1))) := by
    have hrest : parseChanges cfg ⟨caller, s.ids, []⟩ (some (a, objA))
        (ids.map fun b => (.parentId, .id b)) = .ok (ids.map fun b => (.parentId, .id (b + 1))) :=
      parseChanges_parentIds ids fun b hb => ⟨List.not_mem_nil, hids b hb⟩
    simp [parseChanges, parseProperty, hrest]
  have hwalk : walkParent ⟨caller, s.ids, []⟩ s (a + 1) 0 cfg.maxDepth 0 = .ok () := by
    obtain ⟨n, hn⟩ := Nat.exists_eq_succ_of_ne_zero (Nat.pos_iff_ne_zero.mp hdepth)
    rw [hn, walkParent]
    simp [howner]
  have hsucc : ∀ p : Property, p ≠ .parentId →
      Object.get (ids.map fun b => (Property.parentId, Value.id (b + 1))) p = .null :=
    fun p hp => get_parentIds hp ids _
  have hlookup := lookup_parentIds (p := .name) (by simp) ids fun b => .id (b + 1)
  simp [mailboxSetItem, hparse, checkParent, Object.get_cons, currentMailboxId, hwalk, checkRole,
    checkName, validate, hname, ht, lookup_cons, hsucc, hlookup]

theorem mailboxSet_root_then {caller : Caller} {hasEmails : ℕ → Bool} {s : Mailboxes} {a : ℕ}
    {objA : Object} {t : String} (ids : List ℕ) (hdepth : 0 < cfg.maxDepth)
    (ha : s.get a = some objA) (hids : ∀ b ∈ ids, b ∈ s.ids) (hname : objA.get .name = .text t)
    (ht : trim t ≠ "") (howner : caller.isShared = false) :
    mailboxSet cfg assign caller hasEmails s
        ⟨[], [(a, (.parentId, .null) :: ids.map fun b => (.parentId, .id b))], [], false⟩ =
      (s.update a (merge objA ((.parentId, .id 0) :: ids.map fun b => (.parentId, .id (b + 1)))),
        { Response.empty with updated := [a] }) := by
  have hitem := mailboxSetItem_root_then (a := a) ids hdepth hids hname ht howner
  simp [mailboxSet, updateOne, ha, howner, hitem, parentGone, assertedParent, Object.get_cons,
    Response.empty]

/-- The checks of `mailbox_set_item` read the first `parentId` of a request and the merge
writes the last. An owner's update of mailbox `a` that names the root and then a child `b` of
`a` is accepted, and leaves `a` its own ancestor. -/
theorem mailboxSet_repeated_parentId_cycle {caller : Caller} {hasEmails : ℕ → Bool}
    {s : Mailboxes} {a b : ℕ} {objA objB : Object} {t : String} (hdepth : 0 < cfg.maxDepth)
    (ha : s.get a = some objA) (hb : s.get b = some objB) (hchild : objB.get .parentId = .id (a + 1))
    (hname : objA.get .name = .text t) (ht : trim t ≠ "") (howner : caller.isShared = false) :
    let result := mailboxSet cfg assign caller hasEmails s
      ⟨[], [(a, [(.parentId, .null), (.parentId, .id b)])], [], false⟩
    result.2.updated = [a] ∧ Ancestor result.1.up (a + 1) (a + 1) := by
  intro result
  let merged := merge objA [(.parentId, .id 0), (.parentId, .id (b + 1))]
  have hresult : result = (s.update a merged, { Response.empty with updated := [a] }) :=
    mailboxSet_root_then [b] hdepth ha
      (fun c hc => List.mem_singleton.mp hc ▸ mem_keys_of_lookup hb) hname ht howner
  have hmerged : merged.parentId = b + 1 :=
    Object.parentId_of_get (get_merge_append objA [(.parentId, .id 0)] (by simp))
  refine ⟨by rw [hresult], ?_⟩
  have hA : result.1.up (a + 1) = some (b + 1) := by
    rw [hresult, Mailboxes.up_succ, Mailboxes.get_update, if_pos rfl, ha]
    simp [hmerged]
  have hB : result.1.up (b + 1) = some (a + 1) := by
    rw [hresult, Mailboxes.up_succ, Mailboxes.get_update]
    by_cases hba : b = a
    · subst hba
      rw [if_pos rfl, ha]
      simp [hmerged]
    · rw [if_neg hba, hb]
      simp [Object.parentId_of_get hchild]
  exact Relation.TransGen.tail (.single hA) hB

/-- Mailbox 6 is a child of the top-level mailbox 5, and has the name of the top-level
mailbox 7. -/
def exampleMailboxes : Mailboxes :=
  ⟨[(5, [(.name, .text "Archive"), (.parentId, .id 0)]), (6, [(.name, .text "2024"), (.parentId, .id 6)]),
    (7, [(.name, .text "2024"), (.parentId, .id 0)])]⟩

theorem mailboxSet_repeated_parentId_cycle_example :
    let result := mailboxSet exampleConfig freshId exampleCaller (fun _ => false) exampleMailboxes
      ⟨[], [(5, [(.parentId, .null), (.parentId, .id 6)])], [], false⟩
    result.2.updated = [5] ∧ Ancestor result.1.up (5 + 1) (5 + 1) :=
  mailboxSet_repeated_parentId_cycle (by decide) rfl rfl rfl rfl (by decide) rfl

/-- `mailbox_set_item` checks the names of siblings only when the request changes the name.
An owner's update that moves mailbox `x` to the root, where mailbox `y` of the same name
already is, is accepted and leaves two top-level mailboxes with one name. -/
theorem mailboxSet_move_duplicates_name {caller : Caller} {hasEmails : ℕ → Bool} {s : Mailboxes}
    {x y : ℕ} {objX objY : Object} {n : String} (hdepth : 0 < cfg.maxDepth)
    (hx : s.get x = some objX) (hy : s.get y = some objY) (hxy : x ≠ y)
    (hroot : objY.get .parentId = .id 0) (hnameX : objX.get .name = .text n)
    (hnameY : objY.get .name = .text n) (hn : trim n ≠ "") (howner : caller.isShared = false) :
    let result := mailboxSet cfg assign caller hasEmails s ⟨[], [(x, [(.parentId, .null)])], [], false⟩
    result.2.updated = [x] ∧ ∃ ox oy, result.1.get x = some ox ∧ result.1.get y = some oy ∧
      ox.get .parentId = .id 0 ∧ oy.get .parentId = .id 0 ∧ ox.get .name = .text n ∧
      oy.get .name = .text n := by
  intro result
  let moved := merge objX [(.parentId, .id 0)]
  have hresult : result = (s.update x moved, { Response.empty with updated := [x] }) :=
    mailboxSet_root_then [] hdepth hx (fun _ hb => by cases hb) hnameX hn howner
  have hname : moved.get .name = .text n :=
    (get_merge_append_of_ne objX [] (p := .parentId) (v := .id 0) (by simp) (by simp)).trans hnameX
  refine ⟨by rw [hresult], moved, objY, ?_, ?_, get_merge_append objX [] (by simp), hroot, hname,
    hnameY⟩
  · rw [hresult, Mailboxes.get_update, if_pos rfl, hx]
    rfl
  · rw [hresult, Mailboxes.get_update, if_neg (Ne.symm hxy), hy]

theorem mailboxSet_move_duplicates_name_example :
    let result := mailboxSet exampleConfig freshId exampleCaller (fun _ => false) exampleMailboxes
      ⟨[], [(6, [(.parentId, .null)])], [], false⟩
    result.2.updated = [6] ∧ ∃ ox oy, result.1.get 6 = some ox ∧ result.1.get 7 = some oy ∧
      ox.get .parentId = .id 0 ∧ oy.get .parentId = .id 0 ∧ ox.get .name = .text "2024" ∧
      oy.get .name = .text "2024" :=
  mailboxSet_move_duplicates_name (by decide) rfl rfl (by decide) rfl rfl rfl (by decide) rfl

/-- No two stored mailboxes under one parent have one name. -/
def siblingNamesDistinct (s : Mailboxes) : Bool :=
  s.docs.all fun a => s.docs.all fun b =>
    a.1 == b.1 || a.2.parentId != b.2.parentId || a.2.get .name != b.2.get .name

/-- `Archive` at the root with `2024` under it, and another `2024` at the root; the allocator
gives them the ids 1, 2 and 4. -/
def twoYearRequests : List Request :=
  [⟨[("a", [(.name, .text "Archive")])], [], [], false⟩,
    ⟨[("b", [(.name, .text "2024"), (.parentId, .id 1)])], [], [], false⟩,
    ⟨[("c", [(.name, .text "2024")])], [], [], false⟩]

def twoYearMailboxes : Mailboxes :=
  runRequests exampleConfig freshId exampleCaller (fun _ => false) ⟨[]⟩ twoYearRequests

/-- A well-formed set whose siblings have distinct names, and a `parentId`-only update that
moves the inner `2024` to the root: it is accepted, and the root then holds two mailboxes
named `2024`. -/
theorem mailboxSet_parentId_move_breaks_names :
    WellFormed twoYearMailboxes ∧ siblingNamesDistinct twoYearMailboxes = true ∧
      (mailboxSet exampleConfig freshId exampleCaller (fun _ => false) twoYearMailboxes
        ⟨[], [(2, [(.parentId, .null)])], [], false⟩).2.updated = [2] ∧
      siblingNamesDistinct (mailboxSet exampleConfig freshId exampleCaller (fun _ => false)
        twoYearMailboxes ⟨[], [(2, [(.parentId, .null)])], [], false⟩).1 = false :=
  ⟨WellFormed.of_run freshId_not_mem WellFormed.empty (reflTransGen_runRequests (by decide) _),
    by decide, by decide, by decide⟩

end Repeated

end MailServer.Jmap.MailboxSet
