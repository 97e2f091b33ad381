import MacZfs.Acl.Basic
import MacZfs.Lib.Checked

/-!
# Setting an ACL and getting it back

Neither loop clears its words between entries, so an entry comes back with the rights, the
inheritance flags and the kinds of all entries up to it. It is the entry that was set exactly if
those before it add nothing.
-/

namespace MacZfs.Acl

open Nat Option BitTable Checked

variable {kauth : Kauth}

/-! ## Storage -/

theorem zfsAclNodeRead_set {newObject : { id : ℕ // id ≠ 0 }}
    (set : zfsAclsetCommon zacl acl newObject freeFails = .ok zacl') : zfsAclNodeRead zacl' = acl := by
  unfold zfsAclsetCommon at set
  split at set
  · injection set with set
    subst set
    unfold zfsAclNodeRead
    by_cases new : zacl.zAclExternObj = 0
    · simp [new, newObject.2]
    · simp [new]
  · split at set
    · simp at set
    · injection set with set
      subst set
      simp [zfsAclNodeRead]

/-- The check changes no entry whose flags do not say that it is for the owner, the owning group or
    everyone. -/
theorem validLoop_eq (plain : ∀ ace ∈ acl, ace.aFlags &&& aceTypeFlags = 0)
    (valid : validLoop isdir acl = some (acl', inherit)) :
    acl' = acl ∧ ∀ ace ∈ acl, ace.aType = aceAccessAllowed ∨ ace.aType = aceAccessDenied := by
  induction acl generalizing acl' inherit with
  | nil =>
    simp only [validLoop, Option.some.injEq, Prod.mk.injEq] at valid
    simp [valid.1.symm]
  | cons ace rest ih =>
    have same : specialWho ace = ace := by
      have := plain ace List.mem_cons_self
      simp [specialWho, this, aceOwner, aceIdentifierGroup, aceGroup, aceEveryone]
    simp only [validLoop, same, bind_eq_bind, bind_eq_some_iff, guard_eq_some, exists_const,
      Prod.exists, pure_def, Option.some.injEq, Prod.mk.injEq] at valid
    obtain ⟨kind, -, -, rest', _, loop, rfl, -⟩ := valid
    obtain ⟨rfl, kinds⟩ := ih (fun ace member => plain ace (List.mem_cons_of_mem _ member)) loop
    refine ⟨rfl, fun ace' member => ?_⟩
    rcases List.mem_cons.mp member with rfl | member
    · exact kind
    · exact kinds ace' member

/-- The flags that `zfs_setacl` stores are inheritance flags. -/
theorem setLoop_flags (start : flags &&& aceTypeFlags = 0) (loop : setLoop kauth mask flags type acl = some aces) :
    ∀ ace ∈ aces, ace.aFlags &&& aceTypeFlags = 0 := by
  induction acl generalizing mask flags type aces with
  | nil =>
    simp only [setLoop, Option.some.injEq] at loop
    simp [← loop]
  | cons ace rest ih =>
    simp only [setLoop, bind_eq_bind, bind_eq_some_iff, pure_def, Option.some.injEq] at loop
    obtain ⟨who, -, aces', loop, rfl⟩ := loop
    have next : translate inheritTable ace.aceFlags flags &&& aceTypeFlags = 0 := by
      have low : translate inheritTable ace.aceFlags 0 &&& aceTypeFlags = 0 := by
        simp only [BitTable.translate, inheritTable, row, List.foldl_cons, List.foldl_nil]
        repeat' split
        all_goals decide
      rw [translate_acc, and_or_distrib_right, start, low, or_zero]
    intro ace' member
    rcases List.mem_cons.mp member with rfl | member
    · exact next
    · exact ih next loop ace' member

/-! ## Bits -/

def knownRights : ℕ := known rightsTable

def inheritFlags : ℕ := known inheritTable

theorem or_within_trans {a b c : ℕ} (first : a ||| b = b) (second : b ||| c = c) : a ||| c = c := by
  rw [← second, ← Nat.or_assoc, first]

/-- Adding the known part of `x` to bits that are known gives `x` exactly if all of `x` is known and
    the bits are among those of `x`. -/
theorem or_and_eq_iff {bits x mask : ℕ} (within : bits &&& mask = bits) :
    bits ||| (x &&& mask) = x ↔ x &&& mask = x ∧ bits ||| x = x := by
  constructor
  · intro eq
    have isKnown : x &&& mask = x := by
      calc x &&& mask
        _ = (bits ||| (x &&& mask)) &&& mask := by rw [eq]
        _ = bits ||| (x &&& mask) := by rw [and_or_distrib_right, within, Nat.and_assoc, Nat.and_self]
        _ = x := eq
    rw [isKnown] at eq
    exact ⟨isKnown, eq⟩
  · rintro ⟨isKnown, eq⟩
    rw [isKnown, eq]

theorem translate_step {table : List (ℕ × ℕ)} (apart : (table.map Prod.snd).Nodup) {word bits x}
    (back : translate (inverse table) word 0 = bits) :
    translate (inverse table) (translate table x word) 0 = bits ||| (x &&& known table) := by
  rw [@translate_acc word table x, translate_or, back, translate_inverse apart]

theorem rightsTable_apart : (rightsTable.map Prod.snd).Nodup := by decide
theorem inheritTable_apart : (inheritTable.map Prod.snd).Nodup := by decide

/-! ## Principals -/

def PlainPrincipal (kauth : Kauth) (ace : KauthAce) : Prop :=
  ∀ gid, kauth.guid2gid ace.aceApplicable = some gid → kauth.uid2guid gid = none

/-- The GUID that `zfs_getacl` makes of the identifier that `zfs_setacl` found stands for the same
    principal exactly if the group is not taken for a user. -/
theorem principal_iff (found : (kauth.guid2uid ace.aceApplicable).or (kauth.guid2gid ace.aceApplicable) = some who) :
    kauth.principal (((kauth.uid2guid who).or (kauth.gid2guid who)).getD 0) =
      kauth.principal ace.aceApplicable ↔ PlainPrincipal kauth ace := by
  cases user : kauth.guid2uid ace.aceApplicable with
  | some uid =>
    rw [user, some_or, Option.some.injEq] at found
    subst found
    have back := (kauth.uid_iff _ _).mp user
    simp [back, PlainPrincipal, kauth.apart _ _ user]
  | none =>
    rw [user, none_or] at found
    have back := (kauth.gid_iff _ _).mp found
    have own : kauth.principal ace.aceApplicable = some (.group who) := by
      simp [Kauth.principal, user, found]
    rw [own]
    cases taken : kauth.uid2guid who with
    | none => simp [back, own, PlainPrincipal, found, taken]
    | some guid =>
      have other := (kauth.uid_iff _ _).mpr taken
      simp [Kauth.principal, other, PlainPrincipal, found, taken]

/-! ## Entries -/

structure SameEntry (kauth : Kauth) (given returned : KauthAce) : Prop where
  principal : kauth.principal returned.aceApplicable = kauth.principal given.aceApplicable
  kind : returned.kind = given.kind
  rights : returned.aceRights = given.aceRights
  inherit_ : returned.aceFlags &&& inheritFlags = given.aceFlags &&& inheritFlags

structure Storable (kauth : Kauth) (ace : KauthAce) : Prop where
  principal : PlainPrincipal kauth ace
  kind : ace.kind = kauthAcePermit ∨ ace.kind = kauthAceDeny
  rights : ace.aceRights &&& knownRights = ace.aceRights

structure Grows (earlier later : KauthAce) : Prop where
  rights : earlier.aceRights ||| later.aceRights = later.aceRights
  inherit_ : (earlier.aceFlags &&& inheritFlags) ||| (later.aceFlags &&& inheritFlags) =
    later.aceFlags &&& inheritFlags
  kind : earlier.kind = later.kind

structure Covers (rights flags kind : ℕ) (ace : KauthAce) : Prop where
  rights : rights ||| ace.aceRights = ace.aceRights
  inherit_ : flags ||| (ace.aceFlags &&& inheritFlags) = ace.aceFlags &&& inheritFlags
  kind : kind = 0 ∨ kind = ace.kind

theorem kind_iff {kind type bits} (low : bits < 4)
    (valid : typeOfKind kind type = aceAccessAllowed ∨ typeOfKind kind type = aceAccessDenied) :
    bits ||| kindOfType (typeOfKind kind type) = kind ↔
      (kind = kauthAcePermit ∨ kind = kauthAceDeny) ∧ (bits = 0 ∨ bits = kind) := by
  by_cases permit : kind = kauthAcePermit
  · subst permit
    rw [show typeOfKind kauthAcePermit type = aceAccessAllowed from rfl]
    interval_cases bits <;> decide
  by_cases deny : kind = kauthAceDeny
  · subst deny
    rw [show typeOfKind kauthAceDeny type = aceAccessDenied from rfl]
    interval_cases bits <;> decide
  -- any other kind that is accepted comes back as permit, deny or both, and both is audit
  refine iff_of_false (fun eq => ?_) (by simp [permit, deny])
  have audit : kind ≠ kauthAceAudit := by
    rintro rfl
    rw [show typeOfKind kauthAceAudit type = aceSystemAudit from rfl] at valid
    exact absurd valid (by decide)
  simp only [kauthAcePermit, kauthAceDeny, kauthAceAudit] at permit deny audit
  rcases valid with allowed | denied
  · rw [allowed] at eq
    interval_cases bits <;> simp [kindOfType, aceAccessAllowed, kauthAcePermit] at eq <;> omega
  · rw [denied] at eq
    interval_cases bits <;> simp [kindOfType, aceAccessAllowed, aceAccessDenied, kauthAceDeny] at eq <;> omega

theorem flags_step {aceFlags flags x type : ℕ}
    (back : translate (inverse inheritTable) flags 0 = aceFlags &&& inheritFlags)
    (valid : type = aceAccessAllowed ∨ type = aceAccessDenied) :
    let aceFlags' := translate (inverse inheritTable) (translate inheritTable x flags) aceFlags ||| kindOfType type
    aceFlags' &&& inheritFlags = (aceFlags &&& inheritFlags) ||| (x &&& inheritFlags) ∧
      aceFlags' &&& kauthAceKindmask = (aceFlags &&& kauthAceKindmask) ||| kindOfType type ∧
      translate (inverse inheritTable) (translate inheritTable x flags) 0 = aceFlags' &&& inheritFlags := by
  have step := @translate_step _ inheritTable_apart flags _ x back
  have kindLow : kindOfType type &&& inheritFlags = 0 ∧ kindOfType type &&& kauthAceKindmask = kindOfType type := by
    rcases valid with rfl | rfl <;> decide
  have maskLow : ∀ y, y &&& inheritFlags &&& kauthAceKindmask = 0 := by
    intro y
    rw [Nat.and_assoc, show inheritFlags &&& kauthAceKindmask = 0 by decide, and_zero]
  change _ = _ ||| (x &&& inheritFlags) at step
  have first : (translate (inverse inheritTable) (translate inheritTable x flags) aceFlags ||| kindOfType type) &&&
      inheritFlags = (aceFlags &&& inheritFlags) ||| (x &&& inheritFlags) := by
    rw [translate_acc, step, and_or_distrib_right, and_or_distrib_right, and_or_distrib_right,
      kindLow.1, or_zero, Nat.and_assoc, Nat.and_self, Nat.and_assoc, Nat.and_self, ← Nat.or_assoc, Nat.or_self]
  refine ⟨first, ?_, step.trans first.symm⟩
  rw [translate_acc, step, and_or_distrib_right, and_or_distrib_right, and_or_distrib_right,
    kindLow.2, maskLow, maskLow, or_zero, or_zero]

/-- One entry comes back as it was set exactly if it can be stored and what came before it adds
    nothing. -/
theorem sameEntry_iff {rights aceFlags type} {given returned : KauthAce}
    (principal : kauth.principal returned.aceApplicable = kauth.principal given.aceApplicable ↔
      PlainPrincipal kauth given) (isRights : returned.aceRights = rights ||| (given.aceRights &&& knownRights))
    (within : rights &&& knownRights = rights) (inherits : returned.aceFlags &&& inheritFlags =
      (aceFlags &&& inheritFlags) ||| (given.aceFlags &&& inheritFlags))
    (kinds : returned.kind = (aceFlags &&& kauthAceKindmask) ||| kindOfType (typeOfKind given.kind type))
    (low : aceFlags &&& kauthAceKindmask < 4)
    (valid : typeOfKind given.kind type = aceAccessAllowed ∨ typeOfKind given.kind type = aceAccessDenied) :
    SameEntry kauth given returned ↔ Storable kauth given ∧
      Covers rights (aceFlags &&& inheritFlags) (aceFlags &&& kauthAceKindmask) given := by
  have kind := kind_iff low valid
  have right := @or_and_eq_iff rights given.aceRights knownRights within
  rw [← kinds] at kind
  rw [← isRights] at right
  constructor
  · rintro ⟨samePrincipal, sameKind, sameRights, sameInherit⟩
    obtain ⟨storable, covered⟩ := kind.mp sameKind
    obtain ⟨isKnown, among⟩ := right.mp sameRights
    exact ⟨⟨principal.mp samePrincipal, storable, isKnown⟩, ⟨among, inherits.symm.trans sameInherit, covered⟩⟩
  · rintro ⟨⟨plain, storable, isKnown⟩, ⟨among, inherit_, covered⟩⟩
    exact ⟨principal.mpr plain, kind.mpr ⟨storable, covered⟩, right.mpr ⟨isKnown, among⟩, inherits.trans inherit_⟩

theorem covers_next {rights flags kind : ℕ} {ace later : KauthAce} (storable : Storable kauth ace)
    (covers : Covers rights flags kind ace) :
    Covers ace.aceRights (ace.aceFlags &&& inheritFlags) ace.kind later ↔
      Covers rights flags kind later ∧ Grows ace later := by
  have nonzero : ace.kind ≠ 0 := by
    rcases storable.kind with permit | deny
    · simp [permit, kauthAcePermit]
    · simp [deny, kauthAceDeny]
  constructor
  · rintro ⟨rights', inherit_, kind'⟩
    have same := kind'.resolve_left nonzero
    refine ⟨⟨or_within_trans covers.rights rights', or_within_trans covers.inherit_ inherit_, ?_⟩,
      ⟨rights', inherit_, same⟩⟩
    rcases covers.kind with zero | eq
    · exact .inl zero
    · exact .inr (eq.trans same)
  · rintro ⟨-, grows⟩
    exact ⟨grows.rights, grows.inherit_, .inr grows.kind⟩

/-- The list that comes back is the one that was set exactly if each entry can be stored and what
    came before it adds nothing. Induction over the list, with what the words of both loops hold. -/
theorem loops_iff {mask flags type rights aceFlags : ℕ} {acl : List KauthAce} {aces : List Ace}
    (set : setLoop kauth mask flags type acl = some aces)
    (valid : ∀ ace ∈ aces, ace.aType = aceAccessAllowed ∨ ace.aType = aceAccessDenied)
    (backRights : translate (inverse rightsTable) mask 0 = rights) (within : rights &&& knownRights = rights)
    (backFlags : translate (inverse inheritTable) flags 0 = aceFlags &&& inheritFlags)
    (low : aceFlags &&& kauthAceKindmask < 4) :
    List.Forall₂ (SameEntry kauth) acl (getLoop kauth rights aceFlags aces) ↔
      (∀ ace ∈ acl, Storable kauth ace ∧
        Covers rights (aceFlags &&& inheritFlags) (aceFlags &&& kauthAceKindmask) ace) ∧
      acl.Pairwise Grows := by
  induction acl generalizing mask flags type rights aceFlags aces with
  | nil =>
    simp only [setLoop, Option.some.injEq] at set
    simp [← set, getLoop]
  | cons ace rest ih =>
    simp only [setLoop, bind_eq_bind, bind_eq_some_iff, pure_def, Option.some.injEq] at set
    obtain ⟨who, found, aces', set, rfl⟩ := set
    have valid' := valid _ List.mem_cons_self
    obtain ⟨inherits, kinds, backFlags'⟩ := @flags_step aceFlags flags ace.aceFlags _ backFlags valid'
    have backRights' : translate (inverse rightsTable) (translate rightsTable ace.aceRights mask) 0 =
        rights ||| (ace.aceRights &&& knownRights) := translate_step rightsTable_apart backRights
    have newRights : translate (inverse rightsTable) (translate rightsTable ace.aceRights mask) rights =
        rights ||| (ace.aceRights &&& knownRights) := by
      rw [translate_acc, backRights', ← Nat.or_assoc, Nat.or_self]
    have within' : (rights ||| (ace.aceRights &&& knownRights)) &&& knownRights =
        rights ||| (ace.aceRights &&& knownRights) := by
      rw [and_or_distrib_right, within, Nat.and_assoc, Nat.and_self]
    rw [getLoop]
    rw [newRights]
    generalize translate (inverse inheritTable) (translate inheritTable ace.aceFlags flags) aceFlags |||
      kindOfType (typeOfKind ace.kind type) = aceFlags' at inherits kinds backFlags' ⊢
    have low' : aceFlags' &&& kauthAceKindmask < 4 := by
      rw [kinds]
      refine or_lt_two_pow (n := 2) low ?_
      rcases valid' with allowed | denied
      · rw [allowed]
        decide
      · rw [denied]
        decide
    have rest_iff := ih set (fun ace member => valid ace (List.mem_cons_of_mem _ member)) backRights' within'
      backFlags' low'
    have this_iff := @sameEntry_iff kauth rights aceFlags type ace
      ⟨((kauth.uid2guid who).or (kauth.gid2guid who)).getD 0, aceFlags', rights ||| (ace.aceRights &&& knownRights)⟩
      (principal_iff found) rfl within inherits kinds low valid'
    rw [List.forall₂_cons, rest_iff, this_iff, List.pairwise_cons, List.forall_mem_cons]
    -- what the words hold after an entry that came back is this entry
    have words : Storable kauth ace → Covers rights (aceFlags &&& inheritFlags) (aceFlags &&& kauthAceKindmask) ace →
        ∀ later, Covers (rights ||| (ace.aceRights &&& knownRights)) (aceFlags' &&& inheritFlags)
            (aceFlags' &&& kauthAceKindmask) later ↔
          Covers rights (aceFlags &&& inheritFlags) (aceFlags &&& kauthAceKindmask) later ∧ Grows ace later := by
      intro storable covers later
      rw [(or_and_eq_iff within).mpr ⟨storable.rights, covers.rights⟩, inherits.trans covers.inherit_,
        kinds.trans ((kind_iff low valid').mpr ⟨storable.kind, covers.kind⟩)]
      exact covers_next storable covers
    constructor
    · rintro ⟨⟨storable, covers⟩, each, pairs⟩
      have step := fun later member => (words storable covers later).mp (each later member).2
      exact ⟨⟨⟨storable, covers⟩, fun later member => ⟨(each later member).1, (step later member).1⟩⟩,
        fun later member => (step later member).2, pairs⟩
    · rintro ⟨⟨⟨storable, covers⟩, each⟩, grows, pairs⟩
      exact ⟨⟨storable, covers⟩, fun later member =>
        ⟨(each later member).1, (words storable covers later).mpr ⟨(each later member).2, grows later member⟩⟩, pairs⟩

/-! ## The list -/

structure Plain (kauth : Kauth) (acl : List KauthAce) : Prop where
  storable : ∀ ace ∈ acl, Storable kauth ace
  grows : acl.Pairwise Grows

/-- An ACL that was accepted comes back entry by entry exactly if each entry is an allow or deny entry
    of known rights, for a user or for a group whose number is not a user's, and has all rights and
    inheritance flags and the kind of every entry before it. -/
theorem acl_round_trip_iff {isdir freeFails : Bool} {zacl zacl' : ZfsZnodeAcl}
    {newObject : { id : ℕ // id ≠ 0 }} {acl : List KauthAce}
    (accepted : zfsSetacl kauth isdir zacl newObject freeFails acl = .ok zacl') :
    List.Forall₂ (SameEntry kauth) acl (zfsGetacl kauth zacl') ↔ Plain kauth acl := by
  unfold zfsSetacl at accepted
  cases set : setLoop kauth 0 0 0 acl with
  | none => simp [set] at accepted
  | some aces =>
    rw [set] at accepted
    dsimp only at accepted
    cases checked : zfsAclValid isdir aces with
    | none => simp [checked] at accepted
    | some result =>
      rw [checked] at accepted
      simp only [zfsAclValid, bind_eq_bind, bind_eq_some_iff, guard_eq_some, exists_const] at checked
      obtain ⟨rfl, valid⟩ := validLoop_eq (setLoop_flags (zero_and _) set) checked.2
      rw [zfsGetacl, zfsAclNodeRead_set accepted, loops_iff set valid (by decide) (by decide) (by decide) (by decide)]
      constructor
      · rintro ⟨each, pairs⟩
        exact ⟨fun ace member => (each ace member).1, pairs⟩
      · rintro ⟨storable, grows⟩
        exact ⟨fun ace member => ⟨storable ace member, zero_or _, zero_or _, .inl rfl⟩, grows⟩

theorem half_iff {start guid id} :
    (if start ≤ guid ∧ (guid - start) % 2 = 0 then some ((guid - start) / 2) else none) = some id ↔
      some (2 * id + start) = some guid := by
  split
  · simp only [some.injEq]
    omega
  · simp only [some.injEq, reduceCtorEq, false_iff]
    omega

/-- A directory in which user `u` has the GUID `2 u + 2` and group `g` the GUID `2 g + 3`. -/
def evenKauth : Kauth where
  guid2uid guid := if 2 ≤ guid ∧ (guid - 2) % 2 = 0 then some ((guid - 2) / 2) else none
  guid2gid guid := if 3 ≤ guid ∧ (guid - 3) % 2 = 0 then some ((guid - 3) / 2) else none
  uid2guid uid := some (2 * uid + 2)
  gid2guid gid := some (2 * gid + 3)
  uid_iff _ _ := half_iff
  gid_iff _ _ := half_iff
  apart guid uid found := by
    have eq : 2 * uid + 2 = guid := Option.some.inj (half_iff.mp found)
    subst eq
    have odd : ¬(3 ≤ 2 * uid + 2 ∧ (2 * uid + 2 - 3) % 2 = 0) := by omega
    exact if_neg odd

def noAcl : ZfsZnodeAcl := ⟨0, 0, [], []⟩

def growingAcl : List KauthAce := [⟨2, kauthAcePermit, 0x2⟩, ⟨4, kauthAcePermit, 0x6⟩]

theorem acl_round_trip_iff_growing :
    ∃ zacl, zfsSetacl evenKauth false noAcl ⟨1, by decide⟩ false growingAcl = .ok zacl ∧
      List.Forall₂ (SameEntry evenKauth) growingAcl (zfsGetacl evenKauth zacl) := by
  have accepted : zfsSetacl evenKauth false noAcl ⟨1, by decide⟩ false growingAcl =
      .ok ⟨0, 2, [⟨0, 1, 0, 0⟩, ⟨1, 3, 0, 0⟩], []⟩ := rfl
  refine ⟨_, accepted, (acl_round_trip_iff accepted).mpr ⟨?_, ?_⟩⟩
  · intro ace member
    have users : ∀ ace ∈ growingAcl, evenKauth.guid2gid ace.aceApplicable = none ∧
        ace.kind = kauthAcePermit ∧ ace.aceRights &&& knownRights = ace.aceRights := by decide
    obtain ⟨user, kind, rights⟩ := users ace member
    exact ⟨fun gid group => absurd (user.symm.trans group) (by simp), .inl kind, rights⟩
  · exact List.pairwise_pair.mpr ⟨by decide, by decide, by decide⟩

/-- User 0 may read and write, user 1 may read: user 1 comes back with the right to write. -/
theorem acl_rights_leak :
    ∃ zacl, zfsSetacl evenKauth false noAcl ⟨1, by decide⟩ false
        [⟨2, kauthAcePermit, 0x6⟩, ⟨4, kauthAcePermit, 0x2⟩] = .ok zacl ∧
      zfsGetacl evenKauth zacl = [⟨2, kauthAcePermit, 0x6⟩, ⟨4, kauthAcePermit, 0x6⟩] :=
  ⟨_, rfl, by decide⟩

end MacZfs.Acl
