import MacZfs.Deleg.Closure

/-!
# What a credential is granted

A directory grants a permission to a principal of the credential, or a permission set that has it.
A set means what the nearest directory that defines it says, from the directory of the grant
upwards; the sets that it includes are looked up from there on.

On Mac OS X `dsl_check_user_access` ends with success, so everybody is let in as soon as a directory
of the walk has a delegation object.
-/

namespace MacZfs.Deleg

open List

variable {zapobj : ZapObj} {perm : String} {cr : Cred}

/-! ## Grants -/

def Undefined (zapobj : ZapObj) (name : String) : Prop :=
  zapobj.lookup (whokeySet .namedSet name) = none ∧ zapobj.lookup (whokeySet .namedSetSets name) = none

inductive SetGrants (perm : String) : List DslDir → String → Prop
  | direct {dd : DslDir} {parents : List DslDir} {zapobj : ZapObj} {name : String} {perms : List String}
      (obj : dd.ddDeleg = some zapobj) (found : zapobj.lookup (whokeySet .namedSet name) = some perms)
      (member : perm ∈ perms) : SetGrants perm (dd :: parents) name
  | included {dd : DslDir} {parents : List DslDir} {zapobj : ZapObj} {name sub : String} {subs : List String}
      (obj : dd.ddDeleg = some zapobj) (found : zapobj.lookup (whokeySet .namedSetSets name) = some subs)
      (member : sub ∈ subs) (grants : SetGrants perm (dd :: parents) sub) : SetGrants perm (dd :: parents) name
  | above {dd : DslDir} {parents : List DslDir} {name : String}
      (undefined : ∀ zapobj, dd.ddDeleg = some zapobj → Undefined zapobj name)
      (grants : SetGrants perm parents name) : SetGrants perm (dd :: parents) name

/-- The keys of the principals of a credential: its user, its group, everyone, and its supplementary
    groups. -/
def principalKeys (ofUser ofGroup ofAll : WhoType) (flag : CheckFlag) (cr : Cred) : List String :=
  [whokeyId ofUser flag cr.uid, whokeyId ofGroup flag cr.gid, whokeyEveryone ofAll flag] ++
    cr.groups.map (whokeyId ofGroup flag)

def DirGrants (perm : String) (cr : Cred) (flag : CheckFlag) : List DslDir → Prop
  | [] => False
  | dd :: parents => ∃ zapobj, dd.ddDeleg = some zapobj ∧
      ((∃ key ∈ principalKeys .user .group .everyone flag cr, ∃ perms,
          zapobj.lookup key = some perms ∧ perm ∈ perms) ∨
        ∃ key ∈ principalKeys .userSets .groupSets .everyoneSets flag cr, ∃ sets,
          zapobj.lookup key = some sets ∧ ∃ name ∈ sets, SetGrants perm (dd :: parents) name)

def GrantedFrom (perm : String) (cr : Cred) : CheckFlag → List DslDir → Prop
  | _, [] => False
  | flag, dd :: parents => DirGrants perm cr flag (dd :: parents) ∨ GrantedFrom perm cr .descendent parents

def Granted (perm : String) (cr : Cred) (dirs : List DslDir) : Prop := GrantedFrom perm cr .here dirs

theorem GrantedFrom.exists_deleg (granted : GrantedFrom perm cr flag dirs) : ∃ dd ∈ dirs, dd.ddDeleg ≠ none := by
  induction dirs generalizing flag with
  | nil => exact granted.elim
  | cons dd parents ih =>
    rcases granted with ⟨zapobj, obj, -⟩ | above
    · exact ⟨dd, mem_cons_self, by simp [obj]⟩
    · obtain ⟨dd', member, some_⟩ := ih above
      exact ⟨dd', mem_cons_of_mem _ member, some_⟩

/-! ## The walk ends -/

def allNames (dirs : List DslDir) : Finset String :=
  (dirs.flatMap fun dd => (dd.ddDeleg.getD []).flatMap Prod.snd).toFinset

theorem lookup_mem (found : zapobj.lookup key = some values) : (key, values) ∈ zapobj := by
  induction zapobj with
  | nil => simp at found
  | cons entry rest ih =>
    obtain ⟨key', values'⟩ := entry
    rw [lookup_cons] at found
    split at found
    · rename_i same
      rw [Option.some.injEq] at found
      rw [eq_of_beq same, found]
      exact mem_cons_self
    · exact mem_cons_of_mem _ (ih found)

theorem brings_allNames (member : dd ∈ dirs) (obj : dd.ddDeleg = some zapobj) : Brings (allNames dirs) zapobj := by
  intro key values found name inside
  rw [allNames, mem_toFinset]
  exact mem_flatMap.mpr ⟨dd, member, mem_flatMap.mpr ⟨(key, values), by simpa [obj] using lookup_mem found, inside⟩⟩

theorem dslLoadUserSets_within (brings : Brings names zapobj) (apple) (flag)
    (cr) (within : Within names avl) : Within names (dslLoadUserSets apple zapobj avl flag cr) := by
  unfold dslLoadUserSets
  generalize userSetKeys apple flag cr = keys
  induction keys generalizing avl with
  | nil => exact within
  | cons key rest ih =>
    refine ih ?_
    cases load : dslLoadSets zapobj key avl with
    | none => simpa only [load, Option.getD_none] using within
    | some loaded => simpa only [load, Option.getD_some] using (dslLoadSets_spec brings within load).1

theorem closure_total {names steps} (brings : Brings names zapobj) (enough : names.card < steps)
    (within : Within names avl) :
    expandSets zapobj perm steps steps avl = some none ∨
      ∃ avl', expandSets zapobj perm steps steps avl = some (some avl') ∧ Within names avl' :=
  expandSets_total brings enough steps within
    ((Finset.card_le_card (Finset.filter_subset _ _)).trans_lt enough)

/-- On Mac OS X the walk ends with success at the first delegation object. -/
theorem delegWalk_apple {names} {steps} (enough : names.card < steps) {flag dirs}
    (brings : ∀ dd ∈ dirs, ∀ zapobj, dd.ddDeleg = some zapobj → Brings names zapobj) (within : Within names avl) :
    delegWalk true steps perm cr flag avl dirs = some (if ∃ dd ∈ dirs, dd.ddDeleg ≠ none then .ok else .eperm) := by
  induction dirs generalizing flag with
  | nil => simp [delegWalk]
  | cons dd parents ih =>
    rw [delegWalk]
    cases obj : dd.ddDeleg with
    | none =>
      rw [ih fun dd member => brings dd (mem_cons_of_mem _ member)]
      simp [obj]
    | some zapobj =>
      have brings' := brings dd mem_cons_self zapobj obj
      have some_ : ∃ dd' ∈ dd :: parents, dd'.ddDeleg ≠ none := ⟨dd, mem_cons_self, by simp [obj]⟩
      rw [if_pos some_]
      rcases @closure_total _ perm _ _ _ brings' enough (dslLoadUserSets_within brings' true flag cr within) with
        granted | ⟨avl', done, -⟩
      · simp only [granted]
      · simp [done, dslCheckUserAccess]

/-! ## Mac OS X -/

structure Dataset.Enabled (ds : Dataset) : Prop where
  named : ∀ tail ∈ ds.tail, tail.toList.head? = some '@'
  delegation : ds.spaDelegation = true
  version : zfsVersionDelegatedPerms ≤ ds.spaVersion

theorem Dataset.Enabled.access (enabled : ds.Enabled) (apple) (steps) (perm)
    (cr) : dslDelegAccess apple steps ds perm cr = delegWalk apple steps perm cr .here [] ds.dirs := by
  unfold dslDelegAccess
  rw [if_neg, if_neg, if_neg]
  · exact not_lt.mpr enabled.version
  · simp [enabled.delegation]
  · cases tail : ds.tail with
    | none => simp
    | some name => simpa using enabled.named name tail

/-- On Mac OS X, `dsl_deleg_access` ends, also where permission sets include one another, and it
    grants what is granted exactly if the permission is granted or no directory from the dataset's to
    the root has a delegation object. -/
theorem deleg_access_iff {ds : Dataset} (enabled : ds.Enabled) (perm : String) (cr : Cred) :
    ∃ bound, ∀ steps, bound ≤ steps → ∃ error, dslDelegAccess true steps ds perm cr = some error ∧
      ((error = .ok ↔ Granted perm cr ds.dirs) ↔
        (Granted perm cr ds.dirs ∨ ∀ dd ∈ ds.dirs, dd.ddDeleg = none)) := by
  refine ⟨(allNames ds.dirs).card + 1, fun steps enough => ?_⟩
  have walk := @delegWalk_apple perm cr [] (allNames ds.dirs) steps enough .here ds.dirs
    (fun dd member zapobj obj => brings_allNames member obj) (by simp [Within])
  rw [enabled.access, walk]
  refine ⟨_, rfl, ?_⟩
  by_cases some_ : ∃ dd ∈ ds.dirs, dd.ddDeleg ≠ none
  · have notAll : ¬∀ dd ∈ ds.dirs, dd.ddDeleg = none := by
      obtain ⟨dd, member, has⟩ := some_
      exact fun none => has (none dd member)
    simp [notAll]
  · have none : ¬Granted perm cr ds.dirs := fun granted => some_ granted.exists_deleg
    simp [none]

def oneGrant : Dataset where
  dirs := [⟨some [("ul$501", ["mount"])]⟩]
  tail := none
  spaDelegation := true
  spaVersion := 8

theorem oneGrant_enabled : oneGrant.Enabled where
  named := by simp [oneGrant]
  delegation := rfl
  version := le_refl 8

theorem deleg_access_iff_oneGrant : oneGrant.Enabled ∧
    ∃ bound, ∀ steps, bound ≤ steps → ∃ error, dslDelegAccess true steps oneGrant "mount" ⟨501, 20, []⟩ = some error ∧
      ((error = .ok ↔ Granted "mount" ⟨501, 20, []⟩ oneGrant.dirs) ↔
        (Granted "mount" ⟨501, 20, []⟩ oneGrant.dirs ∨ ∀ dd ∈ oneGrant.dirs, dd.ddDeleg = none)) :=
  ⟨oneGrant_enabled, deleg_access_iff oneGrant_enabled "mount" ⟨501, 20, []⟩⟩

/-- User 502, to whom nothing is granted, may destroy. -/
theorem deleg_access_leak : oneGrant.Enabled ∧
    dslDelegAccess true 2 oneGrant "destroy" ⟨502, 20, []⟩ = some .ok ∧
    ¬Granted "destroy" ⟨502, 20, []⟩ oneGrant.dirs := by
  refine ⟨oneGrant_enabled, by decide, ?_⟩
  rintro (⟨zapobj, obj, direct | viaSet⟩ | above)
  · obtain rfl : [("ul$501", ["mount"])] = zapobj := by simpa using obj
    obtain ⟨key, -, perms, found, member⟩ := direct
    have inside := lookup_mem found
    simp only [mem_singleton, Prod.mk.injEq] at inside
    rw [inside.2] at member
    simp at member
  · obtain rfl : [("ul$501", ["mount"])] = zapobj := by simpa using obj
    obtain ⟨key, isKey, sets, found, -⟩ := viaSet
    have inside := lookup_mem found
    simp only [mem_singleton, Prod.mk.injEq] at inside
    rw [inside.1] at isKey
    revert isKey
    decide
  · exact above

end MacZfs.Deleg
