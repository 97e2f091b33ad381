import MacZfs.Acl.Basic

/-!
# Trivial access control lists

`ace_trivial`, and the two flags of the znode that `zfs_aclset_common` sets when it has stored a
list. The test always looks at the entries in the znode, with the count of the list just stored.
-/

namespace MacZfs.Acl

open List

def aceReadAttributes : ℕ := 0x80
def aceWriteAttributes : ℕ := 0x100
def aceReadAcl : ℕ := 0x20000
def aceWriteAcl : ℕ := 0x40000
def aceWriteOwner : ℕ := 0x80000

/-- `owner_seen`, `group_seen` and `everyone_seen`. -/
structure Seen where
  owner : ℕ := 0
  group : ℕ := 0
  everyone : ℕ := 0

/-- A round of the loop of `ace_trivial`, with no result where it returns 1. -/
def trivialRound (seen : Seen) (ace : Ace) : Option Seen := do
  let who := ace.aFlags &&& 0xf040
  let seen ←
    if who = aceOwner then
      if seen.group ≠ 0 ∨ seen.everyone ≠ 0 then none else some { seen with owner := seen.owner + 1 }
    else if who = aceGroup ||| aceIdentifierGroup then
      if seen.everyone ≠ 0 ∨ seen.owner = 0 then none else some { seen with group := seen.group + 1 }
    else if who = aceEveryone then
      if seen.owner = 0 ∨ seen.group = 0 then none else some { seen with everyone := seen.everyone + 1 }
    else none
  guard (ace.aFlags &&& (aceFileInherit ||| aceDirectoryInherit ||| aceNoPropagateInherit ||| aceInheritOnly) = 0)
  guard ¬(ace.aAccessMask &&& (aceReadAcl ||| aceReadAttributes) ≠ 0 ∧ ace.aType = aceAccessDenied)
  guard ¬(ace.aType = aceAccessAllowed ∧ ace.aFlags &&& aceOwner = 0 ∧
    ace.aAccessMask &&& (aceWriteOwner ||| aceWriteAcl ||| aceWriteAttributes) ≠ 0)
  return seen

/-- The loop of `ace_trivial`, with `aclcnt` rounds to go and `acep` in memory from here on. There is
    no result when it reads past the end; otherwise, whether `ace_trivial` returns 0. -/
def trivialLoop (seen : Seen) : (aclcnt : ℕ) → (acep : List Ace) → Option Bool
  | 0, _ => some (seen.owner ≠ 0 ∧ seen.group ≠ 0 ∧ seen.everyone ≠ 0)
  | _ + 1, [] => none
  | aclcnt + 1, ace :: rest =>
    match trivialRound seen ace with
    | none => some false
    | some seen => trivialLoop seen aclcnt rest

/-- `ace_trivial`. -/
def aceTrivial (acep : List Ace) (aclcnt : ℕ) : Option Bool :=
  trivialLoop {} aclcnt acep

/-- `ZFS_ACL_TRIVIAL` and `ZFS_INHERIT_ACE` of `zp_flags`. -/
structure ZpFlags where
  aclTrivial : Bool
  inheritAce : Bool
  deriving DecidableEq

/-- The entries that `zfs_aclset_common` stores, and `inherit`: the caller's if there is an `ihp`. -/
def aclsetEntries (isdir : Bool) (ihp : Option Bool) (acl : List Ace) : Option (List Ace × Bool) :=
  match ihp with
  | some inherit => some (acl, inherit)
  | none => zfsAclValid isdir acl

/-- The whole of `zfs_aclset_common`. The flags have no value where the test reads past the entries in
    the znode. -/
def zfsAclsetFlags (zacl : ZfsZnodeAcl) (isdir : Bool) (ihp : Option Bool) (acl : List Ace)
    (newObject : { id : ℕ // id ≠ 0 }) (freeFails : Bool) : Except AclError (ZfsZnodeAcl × Option ZpFlags) :=
  match aclsetEntries isdir ihp acl with
  | none => .error .einval
  | some (acl, inherit) =>
    (zfsAclsetCommon zacl acl newObject freeFails).map fun zacl =>
      (zacl, if inherit then some ⟨false, true⟩ else (aceTrivial zacl.zAceData zacl.zAclCount).map (⟨·, false⟩))

/-- The loop comes to a result on the entries of the list, whatever follows them in memory. -/
theorem trivialLoop_append (acl : List Ace) (seen : Seen) :
    ∃ trivial, ∀ rest, trivialLoop seen acl.length (acl ++ rest) = some trivial := by
  induction acl generalizing seen with
  | nil => exact ⟨_, fun _ => rfl⟩
  | cons ace acl ih =>
    simp only [length_cons, cons_append, trivialLoop]
    cases trivialRound seen ace with
    | none => exact ⟨false, fun _ => rfl⟩
    | some seen => exact ih seen

/-- The test looks at the entries of the list alone, and the flag for a trivial list says what
    `ace_trivial` says of the list itself, exactly for a list that fits into the znode or one with
    entries to inherit. -/
theorem aclTrivial_iff (zacl zacl' : ZfsZnodeAcl) (isdir : Bool) (ihp : Option Bool) (acl stored : List Ace)
    (inherit : Bool) (newObject : { id : ℕ // id ≠ 0 }) (freeFails : Bool) (flags : Option ZpFlags)
    (slots : zacl.zAceData.length ≤ aceSlotCnt) (entries : aclsetEntries isdir ihp acl = some (stored, inherit))
    (done : zfsAclsetFlags zacl isdir ihp acl newObject freeFails = .ok (zacl', flags)) :
    ((inherit ∨ zacl'.zAceData.take zacl'.zAclCount = stored) ∧
      ∃ zpFlags, flags = some zpFlags ∧
        (zpFlags.aclTrivial ↔ aceTrivial stored stored.length = some true ∧ ¬inherit)) ↔
      stored.length ≤ aceSlotCnt ∨ inherit := by
  simp only [zfsAclsetFlags, entries] at done
  cases common : zfsAclsetCommon zacl stored newObject freeFails with
  | error e => simp [common, Except.map] at done
  | ok after =>
    simp only [common, Except.map, Except.ok.injEq, Prod.mk.injEq] at done
    obtain ⟨rfl, rfl⟩ := done
    cases inherit with
    | true => exact iff_of_true ⟨.inl rfl, _, rfl, by simp⟩ (.inr rfl)
    | false =>
      by_cases many : stored.length > aceSlotCnt
      · -- the znode keeps its old entries, which are fewer than those of the list
        simp only [zfsAclsetCommon, if_pos many] at common
        obtain rfl := Except.ok.inj common
        have short (same : zacl.zAceData.take stored.length = stored) : False := by
          have := congrArg length same
          rw [length_take] at this
          omega
        exact iff_of_false (fun holds => short (by simpa using holds.1)) (by simpa using many)
      · simp only [zfsAclsetCommon, if_neg many] at common
        split_ifs at common
        obtain rfl := Except.ok.inj common
        obtain ⟨trivial, result⟩ := trivialLoop_append stored {}
        have own := result []
        rw [append_nil] at own
        exact iff_of_true
          ⟨.inr (by simp), ⟨trivial, false⟩, by simp [aceTrivial, result], by simp [aceTrivial, own]⟩
          (.inl (not_lt.mp many))

/-- An entry without rights for the holder of `flags`. -/
def bareAce (flags : ℕ) : Ace := ⟨0, 0, flags, aceAccessAllowed⟩

theorem aclTrivial_three :
    ∃ zpFlags, (some ⟨true, false⟩ : Option ZpFlags) = some zpFlags ∧
      (zpFlags.aclTrivial ↔ aceTrivial [bareAce 0x1000, bareAce 0x2040, bareAce 0x4000] 3 = some true ∧ ¬false) :=
  ((aclTrivial_iff ⟨0, 0, [], []⟩ _ false (some false) _ [bareAce 0x1000, bareAce 0x2040, bareAce 0x4000] false
    ⟨1, by decide⟩ false _ (by decide) rfl rfl).mpr (.inl (by decide))).2

/-- Seven entries over six of a trivial list: none of the seven is tested, and the seventh round
    reads past the entries in the znode. -/
theorem trivial_past_end :
    ∃ zacl', zfsAclsetFlags ⟨0, 6, bareAce 0x1000 :: bareAce 0x2040 :: replicate 4 (bareAce 0x4000), []⟩ false
        (some false) (replicate 7 (bareAce 0)) ⟨1, by decide⟩ false = .ok (zacl', none) :=
  ⟨_, rfl⟩

end MacZfs.Acl
