import MacZfs.Deleg.Access

/-!
# The closure of permission sets

The sets that a credential is granted may name other sets, also in a circle. The names that can get
into the tree are finite in number: a pass visits them in order, and a pass that expands a set marks
one that was not marked before. So the loops end.
-/

namespace MacZfs.Deleg

open Finset

variable {zapobj : ZapObj} {perm : String} {avl avl' : List PermSet} {names : Finset String}

/-! ## The tree -/

variable {node : PermSet}

theorem mem_permInsert :
    node ∈ permInsert avl name ↔ node ∈ avl ∨ node = ⟨false, name⟩ ∧ ∀ node' ∈ avl, node'.pSetname ≠ name := by
  unfold permInsert
  split
  · rename_i present
    simp only [List.any_eq_true, decide_eq_true_eq] at present
    obtain ⟨node', member, same⟩ := present
    constructor
    · exact .inl
    · rintro (before | ⟨-, absent⟩)
      · exact before
      · exact absurd same (absent node' member)
  · rename_i absent
    simp only [List.any_eq_true, decide_eq_true_eq, not_exists, not_and] at absent
    rw [List.mem_orderedInsert]
    constructor
    · rintro (rfl | before)
      · exact .inr ⟨rfl, absent⟩
      · exact .inl before
    · rintro (before | ⟨rfl, -⟩)
      · exact .inr before
      · exact .inl rfl

theorem mem_setMatched : node ∈ setMatched avl name ↔ (node ∈ avl ∧ node.pSetname ≠ name) ∨
      (node = ⟨true, name⟩ ∧ ∃ node' ∈ avl, node'.pSetname = name) := by
  unfold setMatched
  rw [List.mem_map]
  constructor
  · rintro ⟨node', member, rfl⟩
    split
    · rename_i same
      exact .inr ⟨by rw [← same], node', member, same⟩
    · rename_i other
      exact .inl ⟨member, other⟩
  · rintro (⟨member, other⟩ | ⟨rfl, node', member, same⟩)
    · exact ⟨node, member, if_neg other⟩
    · exact ⟨node', member, by rw [if_pos same, ← same]⟩

def Within (names : Finset String) (avl : List PermSet) : Prop := ∀ node ∈ avl, node.pSetname ∈ names

def Brings (names : Finset String) (zapobj : ZapObj) : Prop :=
  ∀ key values, zapobj.lookup key = some values → ∀ name ∈ values, name ∈ names

def pending (names : Finset String) (avl : List PermSet) : Finset String :=
  names.filter fun name => (∃ node ∈ avl, node.pSetname = name ∧ node.pMatched = false) ∨
    ∀ node ∈ avl, node.pSetname ≠ name

theorem mem_pending : name ∈ pending names avl ↔ name ∈ names ∧
    ((∃ node ∈ avl, node.pSetname = name ∧ node.pMatched = false) ∨ ∀ node ∈ avl, node.pSetname ≠ name) := by
  simp [pending]

theorem within_permInsert (within : Within names avl) (member : name ∈ names) :
    Within names (permInsert avl name) := by
  intro node inserted
  rcases mem_permInsert.mp inserted with before | ⟨rfl, -⟩
  · exact within node before
  · exact member

theorem pending_permInsert (name) : pending names (permInsert avl name) = pending names avl := by
  ext other
  rw [mem_pending, mem_pending]
  refine and_congr_right fun _ => ?_
  constructor
  · rintro (⟨node, member, rfl, unmarked⟩ | absent)
    · rcases mem_permInsert.mp member with before | ⟨rfl, absent⟩
      · exact .inl ⟨node, before, rfl, unmarked⟩
      · exact .inr absent
    · exact .inr fun node member => absent node (mem_permInsert.mpr (.inl member))
  · rintro (⟨node, member, rfl, unmarked⟩ | absent)
    · exact .inl ⟨node, mem_permInsert.mpr (.inl member), rfl, unmarked⟩
    · by_cases same : other = name
      · subst same
        exact .inl ⟨⟨false, other⟩, mem_permInsert.mpr (.inr ⟨rfl, absent⟩), rfl, rfl⟩
      · refine .inr fun node member => ?_
        rcases mem_permInsert.mp member with before | ⟨rfl, -⟩
        · exact absent node before
        · exact fun eq => same eq.symm

theorem foldl_permInsert {values : List String} (within : Within names avl) (brought : ∀ name ∈ values, name ∈ names) :
    Within names (values.foldl permInsert avl) ∧ pending names (values.foldl permInsert avl) = pending names avl := by
  induction values generalizing avl with
  | nil => exact ⟨within, rfl⟩
  | cons name rest ih =>
    rw [List.forall_mem_cons] at brought
    obtain ⟨within', same⟩ := ih (within_permInsert within brought.1) brought.2
    exact ⟨within', same.trans (pending_permInsert name)⟩

theorem mem_foldl_permInsert {values : List String} (member : node ∈ avl) : node ∈ values.foldl permInsert avl := by
  induction values generalizing avl with
  | nil => exact member
  | cons name rest ih => exact ih (mem_permInsert.mpr (.inl member))

theorem dslLoadSets_spec {key : String} (brings : Brings names zapobj) (within : Within names avl)
    (load : dslLoadSets zapobj key avl = some avl') : Within names avl' ∧ pending names avl' = pending names avl := by
  obtain ⟨values, found, rfl⟩ := Option.map_eq_some_iff.mp load
  exact foldl_permInsert within (brings key values found)

theorem within_setMatched (name) (within : Within names avl) : Within names (setMatched avl name) := by
  intro node member
  rcases mem_setMatched.mp member with ⟨before, -⟩ | ⟨rfl, node', before, rfl⟩
  · exact within node before
  · exact within node' before

theorem pending_setMatched (member : node ∈ avl) (same : node.pSetname = name) :
    pending names (setMatched avl name) = (pending names avl).erase name := by
  ext other
  rw [mem_erase, mem_pending, mem_pending]
  by_cases this : other = name
  · subst this
    simp only [ne_eq, not_true_eq_false, false_and, iff_false, not_and]
    rintro - (⟨node', member', eq, unmarked⟩ | absent)
    · rcases mem_setMatched.mp member' with ⟨-, other⟩ | ⟨rfl, -⟩
      · exact other eq
      · exact absurd unmarked (by simp)
    · exact absent ⟨true, other⟩ (mem_setMatched.mpr (.inr ⟨rfl, node, member, same⟩)) rfl
  · have kept : ∀ node', node'.pSetname = other → (node' ∈ setMatched avl name ↔ node' ∈ avl) := by
      rintro node' rfl
      rw [mem_setMatched]
      constructor
      · rintro (⟨before, -⟩ | ⟨rfl, -⟩)
        · exact before
        · exact absurd rfl this
      · exact fun before => .inl ⟨before, this⟩
    simp only [ne_eq, this, not_false_eq_true, true_and]
    refine and_congr_right fun _ => or_congr ?_ ?_
    · refine exists_congr fun node' => ?_
      constructor
      · rintro ⟨there, eq, unmarked⟩
        exact ⟨(kept node' eq).mp there, eq, unmarked⟩
      · rintro ⟨there, eq, unmarked⟩
        exact ⟨(kept node' eq).mpr there, eq, unmarked⟩
    · refine forall_congr' fun node' => ?_
      constructor
      · exact fun absent there eq => absent ((kept node' eq).mpr there) eq
      · exact fun absent there eq => absent ((kept node' eq).mp there) eq

/-! ## Passes -/

/-- The names after `cur`. -/
def after (names : Finset String) (cur : Option String) : Finset String :=
  names.filter fun name => ∀ start ∈ cur, start < name

theorem after_lt (within : Within names avl)
    (next : avlNext avl cur = some node) : (after names (some node.pSetname)).card < (after names cur).card := by
  have beyond := List.find?_some next
  have member := List.mem_of_find?_eq_some next
  have later : ∀ start ∈ cur, start < node.pSetname := by
    intro start there
    subst there
    simpa using beyond
  refine card_lt_card ⟨?_, ?_⟩
  · intro name inside
    simp only [after, Option.mem_def, Option.some.injEq, forall_eq', mem_filter] at inside
    exact Finset.mem_filter.mpr ⟨inside.1, fun start there => (later start there).trans inside.2⟩
  · intro subset
    have inside := subset (Finset.mem_filter.mpr ⟨within node member, later⟩)
    exact lt_irrefl _ ((Finset.mem_filter.mp inside).2 node.pSetname rfl)

section

variable (brings : Brings names zapobj)

include brings

/-- Visiting a set that is not marked. If it brings in others, it is marked afterwards. -/
theorem visitSet_pending (within : Within names avl) (member : node ∈ avl) (same : node.pSetname = name)
    (visit : visitSet zapobj perm avl name = some (avl', more)) :
    Within names avl' ∧ pending names avl' ⊆ pending names avl ∧
      (more = true → pending names avl' = (pending names avl).erase name) := by
  unfold visitSet at visit
  dsimp only at visit
  split at visit
  · simp at visit
  · -- the tree after the check of the set itself
    have checked : ∃ tree, (if dslCheckAccess zapobj (whokeySet .namedSet name) perm = .eperm
          then setMatched avl name else avl) = tree ∧ Within names tree ∧
        (∃ node' ∈ tree, node'.pSetname = name) ∧
        (pending names tree = pending names avl ∨ pending names tree = (pending names avl).erase name) := by
      split
      · exact ⟨_, rfl, within_setMatched _ within,
          ⟨⟨true, name⟩, mem_setMatched.mpr (.inr ⟨rfl, node, member, same⟩), rfl⟩,
          .inr (pending_setMatched member same)⟩
      · exact ⟨avl, rfl, within, ⟨node, member, same⟩, .inl rfl⟩
    obtain ⟨tree, eq, within', ⟨node', member', same'⟩, marks⟩ := checked
    rw [eq] at visit
    have fewer : pending names tree ⊆ pending names avl := by
      rcases marks with kept | erased
      · rw [kept]
      · rw [erased]
        exact erase_subset _ _
    cases load : dslLoadSets zapobj (whokeySet .namedSetSets name) tree with
    | none =>
      simp only [load, Option.some.injEq, Prod.mk.injEq] at visit
      obtain ⟨rfl, rfl⟩ := visit
      exact ⟨within', fewer, by simp⟩
    | some loaded =>
      simp only [load, Option.some.injEq, Prod.mk.injEq] at visit
      obtain ⟨rfl, rfl⟩ := visit
      obtain ⟨within'', kept⟩ := dslLoadSets_spec brings within' load
      obtain ⟨values, -, isLoaded⟩ := Option.map_eq_some_iff.mp load
      have there : ∃ node ∈ loaded, node.pSetname = name := by
        rw [← isLoaded]
        exact ⟨node', mem_foldl_permInsert member', same'⟩
      obtain ⟨node'', member'', same''⟩ := there
      have erased : pending names (setMatched loaded name) = (pending names avl).erase name := by
        rw [pending_setMatched member'' same'', kept]
        rcases marks with same | erased
        · rw [same]
        · rw [erased, erase_idem]
      refine ⟨within_setMatched name within'', ?_, fun _ => erased⟩
      rw [erased]
      exact erase_subset _ _

/-- A pass ends. It only marks sets, and if it has expanded one, that one was not marked. -/
theorem expandPass_total (steps) {cur expanded}
    (within : Within names avl) (enough : (after names cur).card < steps) :
    expandPass zapobj perm steps cur avl expanded = some .granted ∨
      ∃ avl' expanded', expandPass zapobj perm steps cur avl expanded = some (.done avl' expanded') ∧
        Within names avl' ∧ pending names avl' ⊆ pending names avl ∧
        (expanded' = true → expanded = true ∨ (pending names avl').card < (pending names avl).card) := by
  induction steps generalizing cur avl expanded with
  | zero => omega
  | succ steps ih =>
    rw [expandPass]
    cases next : avlNext avl cur with
    | none => exact .inr ⟨avl, expanded, rfl, within, Finset.Subset.refl _, .inl⟩
    | some node =>
      have member := List.mem_of_find?_eq_some next
      have fewer : (after names (some node.pSetname)).card < steps := by
        have := after_lt within next
        omega
      dsimp only
      split
      · exact ih within fewer
      · rename_i unmarked
        have isPending : node.pSetname ∈ pending names avl :=
          mem_pending.mpr ⟨within node member, .inl ⟨node, member, rfl, by simpa using unmarked⟩⟩
        cases visit : visitSet zapobj perm avl node.pSetname with
        | none => exact .inl rfl
        | some result =>
          obtain ⟨tree, more⟩ := result
          obtain ⟨within', subset, marks⟩ := visitSet_pending brings within member rfl visit
          rcases ih within' fewer with granted | ⟨avl', expanded', done, within'', subset', marks'⟩
          · exact .inl granted
          · refine .inr ⟨avl', expanded', done, within'', subset'.trans subset, fun isExpanded => ?_⟩
            rcases marks' isExpanded with before | less
            · cases more with
              | false => exact .inl (by simpa using before)
              | true =>
                refine .inr ((card_le_card (subset'.trans (marks rfl).subset)).trans_lt ?_)
                exact card_erase_lt_of_mem isPending
            · exact .inr (less.trans_le (card_le_card subset))

theorem expandSets_total (enough : names.card < steps) (passes : ℕ)
    (within : Within names avl) (left : (pending names avl).card < passes) :
    expandSets zapobj perm steps passes avl = some none ∨
      ∃ avl', expandSets zapobj perm steps passes avl = some (some avl') ∧ Within names avl' := by
  induction passes generalizing avl with
  | zero => omega
  | succ passes ih =>
    rw [expandSets]
    have start : (after names none).card < steps :=
      (card_le_card (filter_subset _ _)).trans_lt enough
    rcases @expandPass_total zapobj perm avl names brings steps none false within start with
      granted | ⟨avl', expanded, done, within', -, marks⟩
    · exact .inl (by rw [granted])
    · rw [done]
      cases expanded with
      | false => exact .inr ⟨avl', rfl, within'⟩
      | true =>
        have less := (marks rfl).resolve_left (by simp)
        exact ih within' (by omega)

end

end MacZfs.Deleg
