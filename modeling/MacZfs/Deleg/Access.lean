import MacZfs.Base

/-!
# Delegated permissions

`dsl_deleg_access`: may a credential use a permission on a dataset? The walk goes from the dataset's
directory to the root of the pool. Each directory may have a delegation object, a ZAP of keys such
as `ul$501` whose values are again ZAPs of names: permissions, or permission sets for the keys with
a capital letter. The names of the sets that the credential has met are kept in an AVL tree, here
the list of its nodes in order.

`apple` tells the two builds apart. There are no zones in the port, so the test of the `zoned`
property is left out; a `zap_lookup` fails with `ENOENT` only.
-/

namespace MacZfs.Deleg

/-! ## Keys -/

/-- `zfs_deleg_who_type_t`, without the types for new datasets. -/
inductive WhoType where
  | user
  | userSets
  | group
  | groupSets
  | everyone
  | everyoneSets
  | namedSet
  | namedSetSets
  deriving Repr, DecidableEq

def WhoType.chr : WhoType → Char
  | user => 'u'
  | userSets => 'U'
  | group => 'g'
  | groupSets => 'G'
  | everyone => 'e'
  | everyoneSets => 'E'
  | namedSet => 's'
  | namedSetSets => 'S'

/-- `ZFS_DELEG_LOCAL` and `ZFS_DELEG_DESCENDENT`. -/
inductive CheckFlag where
  | here
  | descendent
  deriving Repr, DecidableEq

def CheckFlag.chr : CheckFlag → Char
  | here => 'l'
  | descendent => 'd'

/-- `zfs_deleg_whokey` of a user or a group. -/
def whokeyId (type : WhoType) (flag : CheckFlag) (id : ℕ) : String :=
  String.ofList [type.chr, flag.chr, '$'] ++ toString id

/-- `zfs_deleg_whokey` of everyone. -/
def whokeyEveryone (type : WhoType) (flag : CheckFlag) : String :=
  String.ofList [type.chr, flag.chr, '$']

/-- `zfs_deleg_whokey` of a permission set. -/
def whokeySet (type : WhoType) (name : String) : String :=
  String.ofList [type.chr, '-', '$'] ++ name

/-! ## State -/

abbrev ZapObj := List (String × List String)

/-- A directory, with the object that `dd_deleg_zapobj` names if it is not zero. -/
structure DslDir where
  ddDeleg : Option ZapObj

structure Cred where
  uid : ℕ
  gid : ℕ
  groups : List ℕ

/-- `perm_set_t`. -/
structure PermSet where
  pMatched : Bool
  pSetname : String
  deriving Repr, DecidableEq

/-! ## Lookups -/

inductive AccessError where
  | ok
  | enoent
  | eperm
  deriving Repr, DecidableEq

/-- `dsl_check_access`, for a key. -/
def dslCheckAccess (zapobj : ZapObj) (whokey perm : String) : AccessError :=
  match zapobj.lookup whokey with
  | none => .enoent
  | some perms => if perm ∈ perms then .ok else .eperm

/-- `dsl_check_user_access`. On the port it ends with success. -/
def dslCheckUserAccess (apple : Bool) (zapobj : ZapObj) (perm : String) (flag : CheckFlag) (cr : Cred) : Bool :=
  dslCheckAccess zapobj (whokeyId .user flag cr.uid) perm = .ok ||
  dslCheckAccess zapobj (whokeyId .group flag cr.gid) perm = .ok ||
  dslCheckAccess zapobj (whokeyEveryone .everyone flag) perm = .ok ||
  (apple || cr.groups.any fun gid => dslCheckAccess zapobj (whokeyId .group flag gid) perm = .ok)

/-- `avl_find` and `avl_insert` of one set. -/
def permInsert (avl : List PermSet) (name : String) : List PermSet :=
  if avl.any fun node => node.pSetname = name then avl
  else avl.orderedInsert (fun node node' => node.pSetname ≤ node'.pSetname) ⟨false, name⟩

/-- `dsl_load_sets`, for a key; `none` stands for `ENOENT`. -/
def dslLoadSets (zapobj : ZapObj) (whokey : String) (avl : List PermSet) : Option (List PermSet) :=
  (zapobj.lookup whokey).map fun names => names.foldl permInsert avl

/-- The keys that `dsl_load_user_sets` looks up. -/
def userSetKeys (apple : Bool) (flag : CheckFlag) (cr : Cred) : List String :=
  [whokeyId .userSets flag cr.uid, whokeyId .groupSets flag cr.gid, whokeyEveryone .everyoneSets flag] ++
    if apple then [] else cr.groups.map (whokeyId .groupSets flag)

/-- `dsl_load_user_sets`. -/
def dslLoadUserSets (apple : Bool) (zapobj : ZapObj) (avl : List PermSet) (flag : CheckFlag) (cr : Cred) :
    List PermSet :=
  (userSetKeys apple flag cr).foldl (fun avl key => (dslLoadSets zapobj key avl).getD avl) avl

/-! ## The closure -/

/-- `avl_first`, or `AVL_NEXT` of the node with this name. -/
def avlNext (avl : List PermSet) (cur : Option String) : Option PermSet :=
  avl.find? fun node => cur.all fun name => name < node.pSetname

/-- `p_matched` set for one set. -/
def setMatched (avl : List PermSet) (name : String) : List PermSet :=
  avl.map fun node => if node.pSetname = name then { node with pMatched := true } else node

/-- How a pass over the tree ends: a set has the permission, or all nodes have been visited; then
    `expanded` says whether a set brought in others. -/
inductive PassResult where
  | granted
  | done (avl : List PermSet) (expanded : Bool)

/-- One set in the loop: whether it has the permission itself, and the sets that it includes. The
    result is the tree and whether there were such, or `none` if the permission is granted. -/
def visitSet (zapobj : ZapObj) (perm : String) (avl : List PermSet) (name : String) :
    Option (List PermSet × Bool) :=
  let error := dslCheckAccess zapobj (whokeySet .namedSet name) perm
  if error = .ok then none
  else
    let avl := if error = .eperm then setMatched avl name else avl
    match dslLoadSets zapobj (whokeySet .namedSetSets name) avl with
    | some avl => some (setMatched avl name, true)
    | none => some (avl, false)

/-- The loop over the sets, from the node after `cur` on. The tree grows while it is walked. -/
def expandPass (zapobj : ZapObj) (perm : String) :
    (steps : ℕ) → (cur : Option String) → List PermSet → (expanded : Bool) → Option PassResult
  | 0, _, _, _ => none
  | steps + 1, cur, avl, expanded =>
    match avlNext avl cur with
    | none => some (.done avl expanded)
    | some setnode =>
      if setnode.pMatched then expandPass zapobj perm steps (some setnode.pSetname) avl expanded
      else
        match visitSet zapobj perm avl setnode.pSetname with
        | none => some .granted
        | some (avl, more) => expandPass zapobj perm steps (some setnode.pSetname) avl (expanded || more)

/-- The passes, until one expands nothing. The result is the tree, or `none` if a set has the
    permission. -/
def expandSets (zapobj : ZapObj) (perm : String) (steps : ℕ) :
    (passes : ℕ) → List PermSet → Option (Option (List PermSet))
  | 0, _ => none
  | passes + 1, avl =>
    match expandPass zapobj perm steps none avl false with
    | none => none
    | some .granted => some none
    | some (.done avl expanded) =>
      if expanded then expandSets zapobj perm steps passes avl else some (some avl)

/-! ## The walk -/

inductive DelegError where
  | ok
  | eperm
  | enoent
  | ecanceled
  deriving Repr, DecidableEq

def delegWalk (apple : Bool) (steps : ℕ) (perm : String) (cr : Cred) :
    CheckFlag → List PermSet → List DslDir → Option DelegError
  | _, _, [] => some .eperm
  | flag, avl, dd :: parents =>
    match dd.ddDeleg with
    | none => delegWalk apple steps perm cr .descendent avl parents
    | some zapobj =>
      match expandSets zapobj perm steps steps (dslLoadUserSets apple zapobj avl flag cr) with
      | none => none
      | some none => some .ok
      | some (some avl) =>
        if dslCheckUserAccess apple zapobj perm flag cr then some .ok
        else delegWalk apple steps perm cr .descendent avl parents

/-- `ZFS_VERSION_DELEGATED_PERMS`. -/
def zfsVersionDelegatedPerms : ℕ := 8

/-- What `dsl_deleg_access` finds: the directory that `dsl_dir_open` finds and those above it, what
    is left of the name, and the pool's settings. -/
structure Dataset where
  dirs : List DslDir
  tail : Option String
  spaDelegation : Bool
  spaVersion : ℕ

/-- `dsl_deleg_access`, with a bound for the loops of the closure. -/
def dslDelegAccess (apple : Bool) (steps : ℕ) (ds : Dataset) (perm : String) (cr : Cred) : Option DelegError :=
  if ds.tail.any fun tail => tail.toList.head? ≠ some '@' then some .enoent
  else if ds.spaDelegation = false then some .ecanceled
  else if ds.spaVersion < zfsVersionDelegatedPerms then some .eperm
  else delegWalk apple steps perm cr .here [] ds.dirs

end MacZfs.Deleg
