import MacZfs.Dnode.ObjectNext

/-! # Freeing a range of objects

`restore_freeobjects` of `dmu_send.c`. What is freed goes from the disk at any later time, so each search has a view of
the meta-dnode of its own. Transactions are assigned.
-/

namespace MacZfs.Recv

open MacZfs.Dnode

/-- `struct drr_freeobjects` -/
structure DrrFreeobjects where
  drrFirstobj : UInt64
  drrNumobjs : UInt64

/-- An object set while a range is freed: the objects that are in use before, and the meta-dnode on disk when the search
    from an object is made. -/
structure ObjectSet where
  inUse : ℕ → Bool
  view : ℕ → Searched

/-- `dmu_object_info`: whether there is no error. -/
def dmuObjectInfo (os : ObjectSet) (freed : List ℕ) (object : ℕ) : Bool :=
  -- `DN_MAX_OBJECT`
  decide (object ≠ 0 ∧ object < 2 ^ 48) && os.inUse object && !freed.contains object

/-- The loop of `restore_freeobjects`, for at most so many turns. -/
def freeLoop (os : ObjectSet) (stop : ℕ) : ℕ → ℕ → List ℕ → Option (List ℕ)
  | 0, _, _ => none
  | fuel + 1, obj, freed =>
    if obj < stop then
      freeLoop os stop fuel (dmuObjectNext (os.view obj) obj false 0).2
        (if dmuObjectInfo os freed obj then obj :: freed else freed)
    else some freed

/-- The check of `restore_freeobjects`. -/
def DrrFreeobjects.bad (drrfo : DrrFreeobjects) : Bool :=
  decide (drrfo.drrFirstobj + drrfo.drrNumobjs < drrfo.drrFirstobj)

/-- `restore_freeobjects`: whether there is no error, and the objects that are freed. -/
def restoreFreeobjects (os : ObjectSet) (fuel : ℕ) (drrfo : DrrFreeobjects) : Option (Bool × List ℕ) :=
  if drrfo.bad then some (false, [])
  else
    (freeLoop os (drrfo.drrFirstobj + drrfo.drrNumobjs).toNat fuel drrfo.drrFirstobj.toNat []).map fun freed => (true, freed)

/-- There was no dirty data before the range was freed, and nothing else changes: only what has been freed, from `first`
    to where the search is, can have gone from the disk. -/
structure ObjectSet.Synced (os : ObjectSet) (first : ℕ) : Prop where
  written : ∀ object, (os.view object).Written 0 32
  numbers : ∀ n, os.inUse n = true → 0 < n ∧ n < 2 ^ 48
  onDisk : ∀ object n, os.inUse n = true → n < first ∨ object < n → (os.view object).Allocated n
  known : ∀ object n, (os.view object).Allocated n → os.inUse n = true

def FreesExactly (os : ObjectSet) (drrfo : DrrFreeobjects) : Prop :=
  ∃ fuel freed, restoreFreeobjects os fuel drrfo = some (true, freed) ∧ ∀ n, n ∈ freed ↔
    os.inUse n = true ∧ drrfo.drrFirstobj.toNat ≤ n ∧ n < drrfo.drrFirstobj.toNat + drrfo.drrNumobjs.toNat

def Chained (os : ObjectSet) (first stop : ℕ) : Prop :=
  ∀ object y, object = first ∨ first < object ∧ os.inUse object = true →
    IsLeast {n | object < n ∧ os.inUse n = true} y → y < stop → (os.view object).Follows object y

/-- The range is empty, or it ends below `2 ^ 55` and the loop comes through it. -/
def Passable (os : ObjectSet) (drrfo : DrrFreeobjects) : Prop :=
  drrfo.drrNumobjs = 0 ∨ drrfo.drrFirstobj.toNat + drrfo.drrNumobjs.toNat < 2 ^ 55 ∧
    Chained os drrfo.drrFirstobj.toNat (drrfo.drrFirstobj.toNat + drrfo.drrNumobjs.toNat)

variable {os : ObjectSet} {first stop object : ℕ} {freed : List ℕ}

namespace ObjectSet.Synced

variable (synced : os.Synced first)

include synced

theorem allocated_iff {n} (after : object < n) : (os.view object).Allocated n ↔ os.inUse n = true :=
  ⟨synced.known object n, fun inUse => synced.onDisk object n inUse (.inr after)⟩

theorem next_iff (small : object + 1 < 2 ^ 55) {y} (least : IsLeast {n | object < n ∧ os.inUse n = true} y) :
    ((os.view object).Follows object y → (dmuObjectNext (os.view object) object false 0).2 = y) ∧
      (¬(os.view object).Follows object y → y < (dmuObjectNext (os.view object) object false 0).2) := by
  refine (synced.written object).next_iff small ?_
  have same : {n | object < n ∧ (os.view object).Allocated n} = {n | object < n ∧ os.inUse n = true} :=
    Set.ext fun n => and_congr_right synced.allocated_iff
  rwa [same]

theorem info_iff (before : ∀ n ∈ freed, n < object) : dmuObjectInfo os freed object = os.inUse object := by
  have fresh : object ∉ freed := fun old => lt_irrefl _ (before object old)
  cases inUse : os.inUse object with
  | false => simp [dmuObjectInfo, inUse]
  | true =>
    have := synced.numbers object inUse
    simp [dmuObjectInfo, inUse, fresh]
    omega

theorem mem_freed (before : ∀ n ∈ freed, n < object) (n : ℕ) :
    n ∈ (if dmuObjectInfo os freed object then object :: freed else freed) ↔
      n ∈ freed ∨ n = object ∧ os.inUse object = true := by
  rw [synced.info_iff before]
  cases inUse : os.inUse object with
  | false => simp
  | true => simp [or_comm]

end ObjectSet.Synced

theorem exists_next (os : ObjectSet) (object stop : ℕ) :
    (∃ y, IsLeast {n | object < n ∧ os.inUse n = true} y ∧ y < stop) ∨
      ∀ n, object < n → n < stop → os.inUse n = false := by
  rcases LevelSearch.exists_first (fun n => os.inUse n = true) (object + 1) with ⟨y, more, inUse, first⟩ | none
  · have least : IsLeast {n | object < n ∧ os.inUse n = true} y :=
      ⟨⟨more, inUse⟩, fun n ⟨after, found⟩ => not_lt.mp fun before => first n after before found⟩
    by_cases inside : y < stop
    · exact .inl ⟨y, least, inside⟩
    · refine .inr fun n after before => Bool.eq_false_iff.mpr fun found => ?_
      have := least.2 ⟨after, found⟩
      omega
  · exact .inr fun n after _ => Bool.eq_false_iff.mpr (none n after)

def Stands (os : ObjectSet) (first stop object : ℕ) : Prop :=
  (object = first ∨ first < object ∧ os.inUse object = true) ∨ ∀ n, object ≤ n → n < stop → os.inUse n = false

theorem Chained.next (chained : Chained os first stop) (synced : os.Synced first) (small : stop < 2 ^ 55)
    (after : first ≤ object) (more : object < stop) (stands : Stands os first stop object) :
    object < (dmuObjectNext (os.view object) object false 0).2 ∧
      (∀ n, object < n → n < stop → os.inUse n = true → (dmuObjectNext (os.view object) object false 0).2 ≤ n) ∧
      Stands os first stop (dmuObjectNext (os.view object) object false 0).2 := by
  have onward := (synced.written object).lt_next (by omega : object + 1 < 2 ^ 55)
  refine ⟨onward, ?_⟩
  rcases exists_next os object stop with ⟨y, least, inside⟩ | none
  · have later := least.1.1
    have next : (dmuObjectNext (os.view object) object false 0).2 = y := by
      rcases stands with start | dead
      · exact (synced.next_iff (by omega) least).1 (chained object y start least inside)
      · exact absurd least.1.2 (by simp [dead y later.le inside])
    rw [next]
    exact ⟨fun n late _ inUse => least.2 ⟨late, inUse⟩, .inl (.inr ⟨by omega, least.1.2⟩)⟩
  · exact ⟨fun n late early inUse => absurd inUse (by simp [none n late early]), .inr fun n late => none n (by omega)⟩

abbrev Empties (os : ObjectSet) (stop object : ℕ) (freed : List ℕ) : Prop :=
  ∃ fuel result, freeLoop os stop fuel object freed = some result ∧
    ∀ n, n ∈ result ↔ n ∈ freed ∨ os.inUse n = true ∧ object ≤ n ∧ n < stop

section

variable (synced : os.Synced first) (small : stop < 2 ^ 55)

include synced small

theorem freeLoop_frees (chained : Chained os first stop) (k : ℕ) :
    ∀ (object : ℕ) (freed : List ℕ), stop - object ≤ k → first ≤ object → (∀ n ∈ freed, n < object) →
    Stands os first stop object → Empties os stop object freed := by
  have done (object : ℕ) (freed : List ℕ) (stop' : ¬object < stop) : Empties os stop object freed := by
    refine ⟨1, freed, by rw [freeLoop, if_neg stop'], fun n => ?_⟩
    exact ⟨.inl, fun either => either.elim id fun inside => by omega⟩
  induction k with
  | zero => exact fun object freed close _ _ _ => done object freed (by omega)
  | succ k ih =>
    intro object freed close after before stands
    by_cases more : object < stop
    · have mem := synced.mem_freed before
      obtain ⟨onward, none, stands'⟩ := chained.next synced small after more stands
      have before' (n : ℕ) (one : n ∈ (if dmuObjectInfo os freed object then object :: freed else freed)) :
          n < (dmuObjectNext (os.view object) object false 0).2 := by
        rcases (mem n).mp one with old | ⟨rfl, _⟩
        · exact (before n old).trans onward
        · exact onward
      obtain ⟨fuel, result, ends, frees⟩ := ih _ _ (by omega) (by omega) before' stands'
      refine ⟨fuel + 1, result, by rw [freeLoop, if_pos more]; exact ends, fun n => ?_⟩
      rw [frees n, mem n]
      constructor
      · rintro ((old | ⟨rfl, inUse⟩) | ⟨inUse, late, early⟩)
        · exact .inl old
        · exact .inr ⟨inUse, le_rfl, more⟩
        · exact .inr ⟨inUse, by omega, early⟩
      · rintro (old | ⟨inUse, late, early⟩)
        · exact .inl (.inl old)
        · rcases Nat.lt_or_eq_of_le late with late | rfl
          · exact .inr ⟨inUse, none n late early inUse, early⟩
          · exact .inl (.inr ⟨rfl, inUse⟩)
    · exact done object freed more

theorem freeLoop_ge (fuel) : ∀ (object : ℕ) (freed : List ℕ)
    (result : List ℕ), freeLoop os stop fuel object freed = some result → ∀ n ∈ result, n ∈ freed ∨ object ≤ n := by
  induction fuel with
  | zero => exact fun object freed result none => by cases none
  | succ fuel ih =>
    intro object freed result ends n one
    rw [freeLoop] at ends
    by_cases more : object < stop
    · rw [if_pos more] at ends
      have onward := (synced.written object).lt_next (by omega : object + 1 < 2 ^ 55)
      rcases ih _ _ result ends n one with old | late
      · split_ifs at old
        · rcases List.mem_cons.mp old with rfl | old
          · exact .inr le_rfl
          · exact .inl old
        · exact .inl old
      · exact .inr (by omega)
    · rw [if_neg more] at ends
      obtain rfl := Option.some.inj ends
      exact .inl one

theorem chained_of_freeLoop (fuel : ℕ) : ∀ (object : ℕ)
    (freed result : List ℕ), first ≤ object → (∀ n ∈ freed, n < object) →
    freeLoop os stop fuel object freed = some result →
    (∀ n, os.inUse n = true → object ≤ n → n < stop → n ∈ result) →
    ∀ object' y, object ≤ object' → object' = first ∨ first < object' ∧ os.inUse object' = true →
      IsLeast {n | object' < n ∧ os.inUse n = true} y → y < stop → (os.view object').Follows object' y := by
  induction fuel with
  | zero => exact fun object freed result _ _ none => by cases none
  | succ fuel ih =>
    intro object freed result after before ends frees object' y late good least inside
    have later := least.1.1
    rw [freeLoop, if_pos (by omega)] at ends
    have mem := synced.mem_freed before
    rcases exists_next os object stop with ⟨x, leastX, _⟩ | none
    · obtain ⟨found, passed⟩ := synced.next_iff (by omega) leastX
      have laterX := leastX.1.1
      have follows : (os.view object).Follows object x := by
        -- what is passed is not freed any more
        by_contra not
        have past := passed not
        rcases freeLoop_ge synced small fuel _ _ result ends x (frees x leastX.1.2 (by omega) (by omega)) with old | late
        · rcases (mem x).mp old with old | ⟨rfl, _⟩
          · have := before x old
            omega
          · omega
        · omega
      rw [found follows] at ends
      rcases Nat.lt_or_eq_of_le late with late | rfl
      · have inUse : os.inUse object' = true := good.elim (fun here => by omega) And.right
        refine ih x _ result (by omega) (fun n one => ?_) ends (fun n used least => frees n used (by omega)) object' y
          (leastX.2 ⟨late, inUse⟩) good least inside
        rcases (mem n).mp one with old | ⟨rfl, _⟩
        · exact (before n old).trans laterX
        · exact laterX
      · rwa [least.unique leastX]
    · exact absurd least.1.2 (by simp [none y (by omega) inside])

end

/-- Object numbers do not reach a range that ends at `2 ^ 55` or later. -/
theorem freeLoop_forever (synced : os.Synced first) (large : 2 ^ 55 ≤ stop) (fuel) : ∀ (object : ℕ) (freed : List ℕ),
    object < stop → freeLoop os stop fuel object freed = none := by
  induction fuel with
  | zero => exact fun object freed _ => rfl
  | succ fuel ih =>
    intro object freed more
    rw [freeLoop, if_pos more]
    exact ih _ _ (lt_of_lt_of_le ((synced.written object).next_lt object) large)

/-- A record that is accepted frees exactly what it should if and only if its range is passable. -/
theorem restoreFreeobjects_iff (os : ObjectSet) (drrfo : DrrFreeobjects) (accepted : drrfo.bad = false)
    (synced : os.Synced drrfo.drrFirstobj.toNat) : FreesExactly os drrfo ↔ Passable os drrfo := by
  obtain ⟨firstobj, numobjs⟩ := drrfo
  have total : (firstobj + numobjs).toNat = firstobj.toNat + numobjs.toNat := by
    have le : firstobj.toNat ≤ (firstobj + numobjs).toNat := by
      simpa [DrrFreeobjects.bad, UInt64.lt_iff_toNat_lt] using accepted
    have := numobjs.toNat_lt
    rw [UInt64.toNat_add] at le ⊢
    omega
  simp only [FreesExactly, Passable, restoreFreeobjects, accepted, total] at synced ⊢
  by_cases empty : numobjs = 0
  · subst empty
    exact ⟨fun _ => .inl rfl, fun _ => ⟨1, [], by simp [freeLoop], fun n => by simp⟩⟩
  · have positive : 0 < numobjs.toNat := by
      refine Nat.pos_of_ne_zero fun zero => empty ?_
      exact UInt64.toNat_inj.mp (by simpa using zero)
    constructor
    · rintro ⟨fuel, freed, ends, exact⟩
      obtain ⟨result, run, same⟩ := Option.map_eq_some_iff.mp ends
      obtain rfl : result = freed := congrArg Prod.snd same
      by_cases small : firstobj.toNat + numobjs.toNat < 2 ^ 55
      · refine .inr ⟨small, fun object y good => ?_⟩
        refine chained_of_freeLoop synced small fuel _ [] result le_rfl (by simp) run
          (fun n inUse late early => (exact n).mpr ⟨inUse, late, early⟩) object y ?_ good
        exact good.elim (fun here => here.ge) fun used => used.1.le
      · rw [freeLoop_forever synced (by omega) fuel _ [] (by omega)] at run
        cases run
    · rintro (none | ⟨small, chained⟩)
      · exact absurd none empty
      · obtain ⟨fuel, result, ends, frees⟩ := freeLoop_frees synced small chained _ _ [] le_rfl le_rfl (by simp)
          (.inl (.inl rfl))
        refine ⟨fuel, result, by rw [if_neg (by decide), ends]; rfl, fun n => ?_⟩
        simpa using frees n

def threeBlocks : Searched where
  phys :=
    { dnNlevels := 1
      dnIndblkshift := 14
      dnNblkptr := 3
      dnMaxblkid := 2
      blkptr := fun l i => if l = 0 ∧ (i = 0 ∨ i = 2) then ⟨5, 1, 16384⟩ else Blkptr.zero }
  dnDatablkshift := 14
  dnDatablksz := 16384
  slot := fun b i => ⟨decide (i = 1 ∧ (b = 0 ∨ b = 2)), []⟩

theorem threeBlocks_data (i : ℕ) :
    threeBlocks.phys.blkptr 0 i = if i = 0 ∨ i = 2 then ⟨5, 1, 16384⟩ else Blkptr.zero := by
  simp [threeBlocks]

theorem threeBlocks_above (l i : ℕ) : threeBlocks.phys.blkptr (l + 1) i = Blkptr.zero := by
  simp [threeBlocks]

theorem threeBlocks_wf : threeBlocks.phys.Wf where
  levels := by decide
  reach := by decide
  top l i above := by
    obtain ⟨l, rfl⟩ : ∃ m, l = m + 1 := ⟨l - 1, by have : 1 ≤ l := above; omega⟩
    simp [threeBlocks_above]
  last l i beyond := by
    cases l with
    | zero =>
      have far : 2 < i := by simpa [threeBlocks] using beyond
      simp [threeBlocks_data, show ¬(i = 0 ∨ i = 2) by omega]
    | succ l => simp [threeBlocks_above]
  below l i inTree := by
    simp [threeBlocks] at inTree

theorem threeBlocks_written : threeBlocks.Written 0 32 where
  wf := threeBlocks_wf
  pow := by decide
  few := by decide
  small := by decide
  items := by decide
  fillHole l i hole := by
    cases l with
    | zero =>
      rw [threeBlocks_data] at hole ⊢
      split_ifs at hole ⊢
      · exact absurd hole (by decide)
      · rfl
    | succ l => simp [threeBlocks_above, Blkptr.zero]
  fillSum l i inTree := by
    simp [threeBlocks] at inTree
  fillData i := by
    rw [threeBlocks_data]
    split_ifs <;> decide
  born l i inTree := by
    simp [threeBlocks] at inTree
  data counts := absurd counts (lt_irrefl 0)
  slots _ := by
    refine ⟨by decide, fun b => ?_⟩
    rw [threeBlocks_data]
    by_cases here : b = 0 ∨ b = 2
    · rw [if_pos here]
      simp only [threeBlocks, here, and_true, decide_eq_true_eq]
      decide
    · rw [if_neg here]
      simp [threeBlocks, here, Blkptr.zero]
  slotsBorn _ b i inside birth none := by simp [threeBlocks] at none

def threeBlocksSet : ObjectSet where
  inUse n := decide (n = 1 ∨ n = 65)
  view _ := threeBlocks

theorem threeBlocks_allocated (n : ℕ) : threeBlocks.Allocated n ↔ n = 1 ∨ n = 65 := by
  simp only [Searched.Allocated, Searched.Sought, threeBlocks, Nat.shiftLeft_eq, Nat.shiftRight_eq_div_pow,
    decide_eq_true_eq, ne_eq, not_true_eq_false, false_implies, and_true]
  omega

/-- From object 31 on, over the block that is a hole. -/
theorem dmuObjectNext_least_next : IsLeast {n | 31 < n ∧ threeBlocks.Sought 0 0 (n <<< 9)} 65 := by
  have starts : threeBlocks.StartsAt 0 0 ((31 + 1) <<< 9) := by
    refine ⟨by decide, fun l _ inTree _ => ?_⟩
    obtain rfl : l = 0 := Nat.lt_one_iff.mp inTree
    decide
  exact (Searched.dmuObjectNext_least threeBlocks_written (absurd rfl) (by decide) (.inr starts)).1 (by decide +kernel)

theorem threeBlocksSet_synced (first) : threeBlocksSet.Synced first where
  written _ := threeBlocks_written
  numbers n inUse := by
    have : n = 1 ∨ n = 65 := by simpa [threeBlocksSet] using inUse
    omega
  onDisk _ n inUse _ := by
    rw [threeBlocksSet, threeBlocks_allocated]
    simpa [threeBlocksSet] using inUse
  known _ n allocated := by
    rw [threeBlocksSet, threeBlocks_allocated] at allocated
    simpa [threeBlocksSet] using allocated

/-- From 64 on, the block of object 65 is read from its start. -/
theorem restoreFreeobjects_from_block : FreesExactly threeBlocksSet ⟨64, 10⟩ := by
  refine (restoreFreeobjects_iff threeBlocksSet ⟨64, 10⟩ (by decide) (threeBlocksSet_synced _)).mpr
    (.inr ⟨by decide, fun object y good least inside l inTree hole => ?_⟩)
  have late : 64 ≤ object := by
    rcases good with rfl | used
    · decide
    · exact used.1.le
  have here : object + 1 < 74 := lt_of_le_of_lt least.1.1 inside
  obtain rfl : l = 0 := by
    have : l < 1 := inTree
    omega
  have block : (object + 1) <<< 9 >>> threeBlocks.span 1 = 2 := by
    rw [Nat.shiftLeft_eq, Nat.shiftRight_eq_div_pow, show threeBlocks.span 1 = 14 from rfl]
    omega
  have data : ¬(threeBlocks.phys.blkptr 0 ((object + 1) <<< 9 >>> threeBlocks.span 1)).IsHole := by
    rw [block]
    decide
  exact absurd hole data

/-- From 40 on, in the hole, the search comes to the block of object 65 after that object. -/
theorem restoreFreeobjects_passes_object :
    threeBlocksSet.Synced 40 ∧ restoreFreeobjects threeBlocksSet 7 ⟨40, 60⟩ = some (true, []) ∧
      threeBlocksSet.inUse 65 = true :=
  ⟨threeBlocksSet_synced 40, by decide +kernel, by decide⟩

end MacZfs.Recv
