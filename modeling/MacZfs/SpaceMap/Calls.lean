import MacZfs.SpaceMap.Excise

/-!
# Sequences of calls

Several space maps and the calls that work on them, two of them at a time where one is walked into
another. As long as every call meets the conditions that `VERIFY` checks, each call returns, every map
stays in canonical form, and its set changes as the name of the call says.
-/

namespace MacZfs

open Extents Checked Function SpaceMap

inductive SpaceMapFunc where
  | add
  | remove
  deriving Repr, DecidableEq

def SpaceMapFunc.call : SpaceMapFunc → SpaceMap → ℕ → ℕ → Option SpaceMap
  | .add => spaceMapAdd
  | .remove => spaceMapRemove

/-- A call on maps named by `ι`. `vacate` without a function is the call with `NULL`. -/
inductive SpaceMapCall (ι : Type) where
  | add (sm : ι) (start size : ℕ)
  | remove (sm : ι) (start size : ℕ)
  | excise (sm : ι) (start size : ℕ)
  | union (smd sms : ι)
  | walk (sm : ι) (func : SpaceMapFunc) (mdest : ι)
  | vacate (sm : ι) (func : Option (SpaceMapFunc × ι))

namespace SpaceMapCall

variable {ι : Type} [DecidableEq ι]

/-- The maps after a call; `none` if it stops the machine. -/
def run (order : DestroyOrder) (maps : ι → SpaceMap) : SpaceMapCall ι → Option (ι → SpaceMap)
  | .add i start size => (spaceMapAdd (maps i) start size).map (Function.update maps i)
  | .remove i start size => (spaceMapRemove (maps i) start size).map (Function.update maps i)
  | .excise i start size => (spaceMapExcise (maps i) start size).map (Function.update maps i)
  | .union d s => (spaceMapUnion (maps d) (maps s)).map (Function.update maps d)
  | .walk i func d => (spaceMapWalk (maps i) func.call (maps d)).map (Function.update maps d)
  | .vacate i none => some (Function.update maps i (maps i).vacated)
  | .vacate i (some (func, d)) =>
    (spaceMapVacate order (maps i) func.call (maps d)).map fun (sm, mdest) =>
      Function.update (Function.update maps d mdest) i sm

def onSet (func : SpaceMapFunc) (dest source : Finset ℕ) : Finset ℕ :=
  match func with
  | .add => dest ∪ source
  | .remove => dest \ source

def apply (sets : ι → Finset ℕ) : SpaceMapCall ι → ι → Finset ℕ
  | .add i start size => Function.update sets i (sets i ∪ Finset.Ico start (start + size))
  | .remove i start size => Function.update sets i (sets i \ Finset.Ico start (start + size))
  | .excise i start size => Function.update sets i (sets i \ Finset.Ico start (start + size))
  | .union d s => Function.update sets d (sets d ∪ sets s)
  | .walk i func d => Function.update sets d (onSet func (sets d) (sets i))
  | .vacate i none => Function.update sets i ∅
  | .vacate i (some (func, d)) => Function.update (Function.update sets d (onSet func (sets d) (sets i))) i ∅

/-- A function may be called on every segment of the source: the segment lies inside the destination's range, on its
    unit, and is not there yet, or is there as a whole. -/
def Walkable (func : SpaceMapFunc) (dest source : SpaceMap) : Prop :=
  (∀ ss ∈ source.smRoot, dest.Fits ss) ∧
    match func with
    | .add => Disjoint dest.offsets source.offsets
    | .remove => source.offsets ⊆ dest.offsets

/-- What the `VERIFY`s of a call check, for ranges inside the map. Two maps of one call are two objects. -/
def Verified (maps : ι → SpaceMap) : SpaceMapCall ι → Prop
  | .add i start size => (maps i).Takes start size ∧ Disjoint (maps i).offsets (Finset.Ico start (start + size))
  | .remove i start size => (maps i).Takes start size ∧ Finset.Ico start (start + size) ⊆ (maps i).offsets
  | .excise i start size => start + size ≤ (maps i).smStart + (maps i).smSize ∧
      Excisable (maps i).offsets (2 ^ (maps i).smShift) start size
  | .union d s => d ≠ s ∧ ∀ ss ∈ (maps s).smRoot, (maps d).Fits ss
  | .walk i func d => d ≠ i ∧ Walkable func (maps d) (maps i)
  | .vacate _ none => True
  | .vacate i (some (func, d)) => d ≠ i ∧ Walkable func (maps d) (maps i)

def setsOf (maps : ι → SpaceMap) : ι → Finset ℕ := fun i => (maps i).offsets

variable {maps : ι → SpaceMap}

theorem setsOf_update (i : ι) {sm offsets} (becomes : (maps i).Becomes sm offsets) :
    setsOf (update maps i sm) = update (setsOf maps) i offsets := by
  funext j
  by_cases same : j = i
  · subst same
    simp [setsOf, becomes.offsets_eq]
  · simp [setsOf, same]

theorem wf_update (wf : ∀ i, (maps i).Wf) (i : ι) {sm offsets}
    (becomes : (maps i).Becomes sm offsets) : ∀ j, (update maps i sm j).Wf := by
  intro j
  by_cases same : j = i
  · subst same
    simpa using becomes.wf
  · simpa [same] using wf j

theorem foldlM_walkable {func} {dest source : SpaceMap} (segs : List SpaceSeg)
    (perm : segs.Perm source.smRoot) (wf : dest.Wf) (sourceWf : source.Wf) (walkable : Walkable func dest source) :
    ∃ sm', segs.foldlM (callOn func.call) dest = some sm' ∧
      dest.Becomes sm' (onSet func dest.offsets source.offsets) := by
  have fits : ∀ ss ∈ segs, dest.Fits ss := fun ss member => walkable.1 ss (perm.mem_iff.mp member)
  have scattered := sourceWf.separated.scattered.perm perm.symm
  have same : cover segs = source.offsets := cover_perm perm
  cases func with
  | add => exact same ▸ foldlM_add segs wf fits scattered (same ▸ walkable.2)
  | remove => exact same ▸ foldlM_remove segs wf fits scattered (same ▸ walkable.2)

theorem vacated_becomes {sm : SpaceMap} (wf : sm.Wf) : sm.Becomes sm.vacated ∅ := ⟨wf.vacated, rfl, rfl⟩

theorem run_verified (order : DestroyOrder) (wf : ∀ i, (maps i).Wf) (call : SpaceMapCall ι)
    (verified : call.Verified maps) :
    ∃ maps', call.run order maps = some maps' ∧ (∀ i, (maps' i).Wf) ∧ setsOf maps' = call.apply (setsOf maps) := by
  -- the calls that change one map only
  have one : ∀ {i : ι} {res : Option SpaceMap} {offsets : Finset ℕ},
      (∃ sm', res = some sm' ∧ (maps i).Becomes sm' offsets) →
      ∃ maps', res.map (update maps i) = some maps' ∧ (∀ j, (maps' j).Wf) ∧
        setsOf maps' = update (setsOf maps) i offsets := by
    rintro i res offsets ⟨sm', rfl, becomes⟩
    exact ⟨_, rfl, wf_update wf i becomes, setsOf_update i becomes⟩
  cases call with
  | add i start size => exact one (add_spec (wf i) verified.1 verified.2)
  | remove i start size =>
    have takes := verified.1
    exact one (remove_spec (wf i) takes.nonempty takes.alignedStart takes.alignedSize verified.2)
  | excise i start size => exact one (excise_spec (wf i) verified.1 verified.2)
  | union d s => exact one (union_spec (wf d) verified.2)
  | walk i func d => exact one (foldlM_walkable _ (List.Perm.refl _) (wf d) (wf i) verified.2)
  | vacate i func =>
    cases func with
    | none => exact ⟨_, rfl, wf_update wf i (vacated_becomes (wf i)), setsOf_update i (vacated_becomes (wf i))⟩
    | some func =>
      obtain ⟨func, d⟩ := func
      obtain ⟨apart, walkable⟩ := verified
      obtain ⟨mdest, folded, becomes⟩ := foldlM_walkable _ (order.perm (maps i).smRoot) (wf d) (wf i) walkable
      have kept : update maps d mdest i = maps i := by simp [apart.symm]
      have vacated : (update maps d mdest i).Becomes (maps i).vacated ∅ := by
        rw [kept]
        exact vacated_becomes (wf i)
      refine ⟨update (update maps d mdest) i (maps i).vacated, ?_, wf_update (wf_update wf d becomes) i vacated, ?_⟩
      · simp [run, spaceMapVacate, folded]
      · rw [setsOf_update i vacated, setsOf_update d becomes]
        rfl

/-! ## Runs -/

def runAll (order : DestroyOrder) (maps : ι → SpaceMap) (calls : List (SpaceMapCall ι)) : Option (ι → SpaceMap) :=
  calls.foldlM (run order) maps

def AllVerified (order : DestroyOrder) (maps : ι → SpaceMap) : List (SpaceMapCall ι) → Prop
  | [] => True
  | call :: calls => call.Verified maps ∧ ∀ maps', call.run order maps = some maps' → AllVerified order maps' calls

theorem runAll_verified (order) (calls : List (SpaceMapCall ι)) (wf : ∀ i, (maps i).Wf)
    (verified : AllVerified order maps calls) :
    ∃ maps', runAll order maps calls = some maps' ∧ (∀ i, (maps' i).Wf) ∧
      setsOf maps' = calls.foldl apply (setsOf maps) := by
  induction calls generalizing maps with
  | nil => exact ⟨maps, rfl, wf, rfl⟩
  | cons call calls ih =>
    obtain ⟨next, ran, wf', sets⟩ := run_verified order wf call verified.1
    obtain ⟨final, ranAll, finalWf, finalSets⟩ := ih wf' (verified.2 next ran)
    refine ⟨final, ?_, finalWf, ?_⟩
    · rw [runAll, List.foldlM_cons, ran]
      exact ranAll
    · rw [finalSets, sets, List.foldl_cons]

end SpaceMapCall

/-! ## What the maps say -/

theorem created_wf (bounded : start + size < 2 ^ 64) : (spaceMapCreate start size shift).Wf where
  separated := separated_nil
  lower := by simp [spaceMapCreate]
  upper := by simp [spaceMapCreate]
  space := rfl
  bounded := bounded

theorem SpaceMap.contains_eq (wf : sm.Wf) (takes : sm.Takes start size) :
    spaceMapContains sm start size = some (decide (Finset.Ico start (start + size) ⊆ sm.offsets)) := by
  have upper := takes.upper
  have bounded := wf.bounded
  have nonempty := takes.nonempty
  have stopEq : u64 (start + size) = start + size := u64_of_lt (by omega)
  have checks : size ≠ 0 ∧ start % 2 ^ sm.smShift = 0 ∧ size % 2 ^ sm.smShift = 0 :=
    ⟨by omega, Nat.mod_eq_zero_of_dvd takes.alignedStart, Nat.mod_eq_zero_of_dvd takes.alignedSize⟩
  have held : Finset.Ico start (start + size) ⊆ sm.offsets →
      ∃ ss, (avlFind spaceMapSegCompare ⟨start, start + size⟩ sm.smRoot).node = some ss ∧ ss.start ≤ start ∧
        start + size ≤ ss.stop := by
    intro inside
    obtain ⟨ss, member, low, high⟩ := wf.separated.exists_extent (by omega) inside
    exact ⟨ss, find_of_inside wf (by simp only; omega) member low high, low, high⟩
  simp only [spaceMapContains, stopEq, p2phase_shift, checks, guard_true, Option.bind_eq_bind, Option.bind_some,
    ne_eq, not_false_eq_true, Option.pure_def, Option.some.injEq]
  cases node : (avlFind spaceMapSegCompare ⟨start, start + size⟩ sm.smRoot).node with
  | none =>
    symm
    rw [decide_eq_false_iff_not]
    intro inside
    obtain ⟨ss, found, -, -⟩ := held inside
    cases node.symm.trans found
  | some ss =>
    have member : ss ∈ sm.smRoot := by
      rw [avlFind_split spaceMapSegCompare ⟨start, start + size⟩ sm.smRoot, node]
      simp
    rw [decide_eq_decide]
    constructor
    · rintro ⟨low, high⟩ x inside
      rw [Finset.mem_Ico] at inside
      exact mem_cover.mpr ⟨ss, member, by omega, by omega⟩
    · intro inside
      obtain ⟨found, at_, low, high⟩ := held inside
      cases node.symm.trans at_
      exact ⟨low, high⟩

/-- Every sequence of calls on maps of any ranges below `2 ^ 64` in which each call meets its conditions: all calls
    return, the segments of each map stay in order and apart with a gap between them, `sm_space` is the sum of their
    sizes, the map holds the set that the calls make, and `space_map_contains` says whether a whole range is in it. -/
theorem space_map_calls_sets {ι : Type} [DecidableEq ι] (order : DestroyOrder) (maps : ι → SpaceMap)
    (calls : List (SpaceMapCall ι))
    (created : ∀ i, ∃ start size shift, start + size < 2 ^ 64 ∧ maps i = spaceMapCreate start size shift)
    (verified : SpaceMapCall.AllVerified order maps calls) :
    ∃ maps', SpaceMapCall.runAll order maps calls = some maps' ∧ ∀ i,
      (maps' i).smRoot.Pairwise (fun a b => a.stop < b.start) ∧ (∀ ss ∈ (maps' i).smRoot, ss.start < ss.stop) ∧
      (maps' i).smSpace = ((maps' i).smRoot.map fun ss => ss.stop - ss.start).sum ∧
      cover (maps' i).smRoot = calls.foldl SpaceMapCall.apply (fun _ => ∅) i ∧
      ∀ start size, (maps' i).Takes start size → (spaceMapContains (maps' i) start size = some true ↔
        Finset.Ico start (start + size) ⊆ calls.foldl SpaceMapCall.apply (fun _ => ∅) i) := by
  have wf : ∀ i, (maps i).Wf := by
    intro i
    obtain ⟨start, size, shift, bounded, eq⟩ := created i
    exact eq ▸ created_wf bounded
  have empty : SpaceMapCall.setsOf maps = fun _ => ∅ := by
    funext i
    obtain ⟨start, size, shift, -, eq⟩ := created i
    rw [SpaceMapCall.setsOf, eq]
    rfl
  obtain ⟨maps', ran, wf', sets⟩ := SpaceMapCall.runAll_verified order calls wf verified
  rw [empty] at sets
  refine ⟨maps', ran, fun i => ?_⟩
  have set : cover (maps' i).smRoot = _ := congrFun sets i
  refine ⟨(wf' i).separated.gaps, (wf' i).separated.nonempty, (wf' i).space, set, ?_⟩
  intro start size takes
  rw [contains_eq (wf' i) takes, Option.some.injEq, decide_eq_true_iff, offsets, set]

def topCalls : List (SpaceMapCall Bool) :=
  [.add false (2 ^ 64 - 9) 8, .excise false (2 ^ 64 - 7) 2, .add true (2 ^ 64 - 8) 4, .union true false]

theorem space_map_calls_sets_top :
    ∃ maps', SpaceMapCall.runAll ⟨id, fun _ => .refl _⟩ (fun _ => spaceMapCreate 0 (2 ^ 64 - 1) 0) topCalls = some maps' ∧
      (maps' true).smRoot = [⟨2 ^ 64 - 9, 2 ^ 64 - 1⟩] := by
  have verified : SpaceMapCall.AllVerified ⟨id, fun _ => .refl _⟩ (fun _ : Bool => spaceMapCreate 0 (2 ^ 64 - 1) 0)
      topCalls := by
    refine ⟨⟨⟨by decide, by decide, by decide, by decide, by decide⟩, by decide⟩, ?_⟩
    rintro _ ⟨⟩
    refine ⟨⟨by decide, by decide, by decide⟩, ?_⟩
    rintro _ ⟨⟩
    refine ⟨⟨⟨by decide, by decide, by decide, by decide, by decide⟩, by decide⟩, ?_⟩
    rintro _ ⟨⟩
    refine ⟨⟨by decide, ?_⟩, fun _ _ => trivial⟩
    have segments : ∀ ss ∈ [(⟨2 ^ 64 - 9, 2 ^ 64 - 7⟩ : SpaceSeg), ⟨2 ^ 64 - 5, 2 ^ 64 - 1⟩],
        (spaceMapCreate 0 (2 ^ 64 - 1) 0).Fits ss := by
      simp only [List.forall_mem_cons]
      exact ⟨⟨by decide, by decide, by decide⟩, ⟨by decide, by decide, by decide⟩, by simp⟩
    exact fun ss member => (segments ss member).congr rfl
  obtain ⟨maps', ran, -⟩ := space_map_calls_sets ⟨id, fun _ => .refl _⟩ (fun _ => spaceMapCreate 0 (2 ^ 64 - 1) 0) topCalls
    (fun _ => ⟨0, 2 ^ 64 - 1, 0, by decide, rfl⟩) verified
  refine ⟨maps', ran, ?_⟩
  cases ran
  rfl

end MacZfs
