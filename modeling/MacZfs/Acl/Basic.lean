import MacZfs.Base
import MacZfs.Lib.BitTable

/-!
# Access control lists on Mac OS X

`zfs_setacl` and `zfs_getacl` of the Mac OS X port, which translate between the system's ACL entries
and the NFSv4 entries that a znode keeps, up to six in the znode and more in an object of their
own. The system's directory of users and groups is a parameter. What the functions do besides, the
flags and time stamps of the znode and the intent log, is left out, and so are allocation failures
and errors of `dmu_read`.
-/

namespace MacZfs.Acl

open BitTable

/-! ## The system's side -/

abbrev Guid := ℕ

/-- The `kauth_cred` functions: each user and each group that is known has its own GUID. -/
structure Kauth where
  guid2uid : Guid → Option ℕ
  guid2gid : Guid → Option ℕ
  uid2guid : ℕ → Option Guid
  gid2guid : ℕ → Option Guid
  uid_iff : ∀ guid uid, guid2uid guid = some uid ↔ uid2guid uid = some guid
  gid_iff : ∀ guid gid, guid2gid guid = some gid ↔ gid2guid gid = some guid
  apart : ∀ guid uid, guid2uid guid = some uid → guid2gid guid = none

inductive Principal where
  | user (uid : ℕ)
  | group (gid : ℕ)
  deriving Repr, DecidableEq

def Kauth.principal (kauth : Kauth) (guid : Guid) : Option Principal :=
  match kauth.guid2uid guid with
  | some uid => some (.user uid)
  | none => (kauth.guid2gid guid).map .group

/-- `struct kauth_ace`. -/
structure KauthAce where
  aceApplicable : Guid
  aceFlags : ℕ
  aceRights : ℕ
  deriving Repr, DecidableEq

def kauthAceKindmask : ℕ := 0xf
def kauthAcePermit : ℕ := 1
def kauthAceDeny : ℕ := 2
def kauthAceAudit : ℕ := 3
def kauthAceAlarm : ℕ := 4

def KauthAce.kind (ace : KauthAce) : ℕ := ace.aceFlags &&& kauthAceKindmask

/-! ## The znode's side -/

/-- `ace_t`. -/
structure Ace where
  aWho : ℕ
  aAccessMask : ℕ
  aFlags : ℕ
  aType : ℕ
  deriving Repr, DecidableEq

def aceAccessAllowed : ℕ := 0
def aceAccessDenied : ℕ := 1
def aceSystemAudit : ℕ := 2
def aceSystemAlarm : ℕ := 3

def aceFileInherit : ℕ := 0x0001
def aceDirectoryInherit : ℕ := 0x0002
def aceNoPropagateInherit : ℕ := 0x0004
def aceInheritOnly : ℕ := 0x0008
def aceIdentifierGroup : ℕ := 0x0040
def aceOwner : ℕ := 0x1000
def aceGroup : ℕ := 0x2000
def aceEveryone : ℕ := 0x4000
def aceTypeFlags : ℕ := aceOwner ||| aceGroup ||| aceEveryone ||| aceIdentifierGroup

def maxAclEntries : ℕ := 1024
def aceSlotCnt : ℕ := 6

/-! ## Translation -/

/-- The bits of `KAUTH_VNODE_*` and `ACE_*` for the same right, in the order of the source. -/
def rightsTable : List (ℕ × ℕ) :=
  [ (1, 0)    -- READ_DATA
  , (2, 1)    -- WRITE_DATA
  , (5, 2)    -- APPEND_DATA
  , (9, 3)    -- READ_EXTATTRIBUTES, READ_NAMED_ATTRS
  , (10, 4)   -- WRITE_EXTATTRIBUTES, WRITE_NAMED_ATTRS
  , (3, 5)    -- EXECUTE
  , (6, 6)    -- DELETE_CHILD
  , (7, 7)    -- READ_ATTRIBUTES
  , (8, 8)    -- WRITE_ATTRIBUTES
  , (4, 16)   -- DELETE
  , (11, 17)  -- READ_SECURITY, READ_ACL
  , (12, 18)  -- WRITE_SECURITY, WRITE_ACL
  , (13, 19)  -- TAKE_OWNERSHIP, WRITE_OWNER
  , (20, 20)  -- SYNCHRONIZE
  ]

/-- The bits of `KAUTH_ACE_*` and `ACE_*` for the same inheritance flag. -/
def inheritTable : List (ℕ × ℕ) :=
  [ (5, 0)  -- FILE_INHERIT
  , (6, 1)  -- DIRECTORY_INHERIT
  , (7, 2)  -- LIMIT_INHERIT, NO_PROPAGATE_INHERIT
  , (8, 3)  -- ONLY_INHERIT, INHERIT_ONLY
  ]

/-- The first switch: another kind leaves `type` as it is. -/
def typeOfKind (kind type : ℕ) : ℕ :=
  if kind = kauthAcePermit then aceAccessAllowed
  else if kind = kauthAceDeny then aceAccessDenied
  else if kind = kauthAceAudit then aceSystemAudit
  else if kind = kauthAceAlarm then aceSystemAlarm
  else type

/-- The second switch: the bits that are added to `ace_flags`. -/
def kindOfType (type : ℕ) : ℕ :=
  if type = aceAccessAllowed then kauthAcePermit
  else if type = aceAccessDenied then kauthAceDeny
  else if type = aceSystemAudit then kauthAceAudit
  else if type = aceSystemAlarm then kauthAceAlarm
  else 0

/-- The loop of `zfs_setacl`. `mask`, `flags` and `type` are set to zero before the first entry only. -/
def setLoop (kauth : Kauth) (mask flags type : ℕ) : List KauthAce → Option (List Ace)
  | [] => some []
  | ace :: rest => do
      let who ← (kauth.guid2uid ace.aceApplicable).or (kauth.guid2gid ace.aceApplicable)
      let mask := translate rightsTable ace.aceRights mask
      let flags := translate inheritTable ace.aceFlags flags
      let type := typeOfKind ace.kind type
      let rest ← setLoop kauth mask flags type rest
      return ⟨who, mask, flags, type⟩ :: rest

/-- The loop of `zfs_getacl`. `rights` and `ace_flags` are set to zero before the first entry only.
    An identifier that is neither a user's nor a group's gets a GUID of zeros. -/
def getLoop (kauth : Kauth) (rights aceFlags : ℕ) : List Ace → List KauthAce
  | [] => []
  | ace :: rest =>
    let guid := ((kauth.uid2guid ace.aWho).or (kauth.gid2guid ace.aWho)).getD 0
    let rights := translate (inverse rightsTable) ace.aAccessMask rights
    let aceFlags := translate (inverse inheritTable) ace.aFlags aceFlags ||| kindOfType ace.aType
    ⟨guid, aceFlags, rights⟩ :: getLoop kauth rights aceFlags rest

/-! ## Storage -/

/-- `zfs_znode_acl_t`, with what the external object holds. -/
structure ZfsZnodeAcl where
  zAclExternObj : ℕ
  zAclCount : ℕ
  zAceData : List Ace
  object : List Ace

/-- `a_who` of an entry for the owner, the owning group or everyone. -/
def specialWho (ace : Ace) : Ace :=
  let special := ace.aFlags &&& aceTypeFlags
  if special = aceOwner ∨ special = aceIdentifierGroup ||| aceGroup ∨ special = aceEveryone then
    { ace with aWho := 2 ^ 32 - 1 }
  else ace

/-- The loop of `zfs_acl_valid`; the entries as it leaves them, and `*inherit`. -/
def validLoop (isdir : Bool) : List Ace → Option (List Ace × Bool)
  | [] => some ([], false)
  | ace :: rest => do
      let ace := specialWho ace
      guard (ace.aType = aceAccessAllowed ∨ ace.aType = aceAccessDenied)
      guard (isdir ∨ ace.aFlags &&&
        (aceFileInherit ||| aceDirectoryInherit ||| aceInheritOnly ||| aceNoPropagateInherit) = 0)
      guard (ace.aFlags &&& (aceInheritOnly ||| aceNoPropagateInherit) = 0 ∨
        ace.aFlags &&& (aceFileInherit ||| aceDirectoryInherit) ≠ 0)
      let (rest, inherit) ← validLoop isdir rest
      return (ace :: rest, inherit || decide (ace.aFlags &&& (aceFileInherit ||| aceDirectoryInherit) ≠ 0))

/-- `zfs_acl_valid`. -/
def zfsAclValid (isdir : Bool) (acl : List Ace) : Option (List Ace × Bool) := do
  guard (acl.length ≤ maxAclEntries)
  validLoop isdir acl

inductive AclError where
  | einval
  /-- An error of `dmu_object_free`. -/
  | freeFailed
  deriving Repr, DecidableEq

/-- `zfs_aclset_common`. `newObject` is what `dmu_object_alloc` returns, `freeFails` says whether
    `dmu_object_free` fails. -/
def zfsAclsetCommon (zacl : ZfsZnodeAcl) (acl : List Ace) (newObject : { id : ℕ // id ≠ 0 })
    (freeFails : Bool) : Except AclError ZfsZnodeAcl :=
  if acl.length > aceSlotCnt then
    .ok { zacl with
      zAclExternObj := if zacl.zAclExternObj = 0 then newObject else zacl.zAclExternObj
      zAclCount := acl.length
      object := if zacl.zAclExternObj = 0 then acl else acl ++ zacl.object.drop acl.length }
  else if zacl.zAclExternObj ≠ 0 ∧ freeFails then .error .freeFailed
  else
    .ok { zacl with
      zAclExternObj := 0
      zAclCount := acl.length
      zAceData := acl ++ zacl.zAceData.drop acl.length }

/-- `zfs_acl_node_read`. -/
def zfsAclNodeRead (zacl : ZfsZnodeAcl) : List Ace :=
  if zacl.zAclExternObj = 0 then zacl.zAceData.take zacl.zAclCount else zacl.object.take zacl.zAclCount

/-- `zfs_setacl`. -/
def zfsSetacl (kauth : Kauth) (isdir : Bool) (zacl : ZfsZnodeAcl) (newObject : { id : ℕ // id ≠ 0 })
    (freeFails : Bool) (acl : List KauthAce) : Except AclError ZfsZnodeAcl :=
  match setLoop kauth 0 0 0 acl with
  | none => .error .einval
  | some aces =>
    match zfsAclValid isdir aces with
    | none => .error .einval
    | some (aces, _) => zfsAclsetCommon zacl aces newObject freeFails

/-- `zfs_getacl`. -/
def zfsGetacl (kauth : Kauth) (zacl : ZfsZnodeAcl) : List KauthAce :=
  getLoop kauth 0 0 (zfsAclNodeRead zacl)

end MacZfs.Acl
