import MacZfs.Raidz.Stripe

/-! # Attempts of `vdev_raidz_io_done`

What one call can do, for any map: the counts it starts from, the columns it finds, that every attempt writes
only the columns it is about, and that data is accepted only with a valid checksum. A loop that fails puts
back every column (`combinatorial_spec`).
-/

namespace MacZfs.Raidz

open List RaidzMap

/-! ## Counting columns -/

namespace RaidzMap

variable (rm : RaidzMap)

def errors : Finset ℕ := (Finset.range rm.rmCol.length).filter fun c => (rm.col c).rcError ≠ none

def dataErrors : Finset ℕ := rm.errors.filter (rm.rmFirstdatacol ≤ ·)

def parityUntried : Finset ℕ :=
  (Finset.range rm.rmCol.length).filter fun c =>
    (rm.col c).rcError = none ∧ c < rm.rmFirstdatacol ∧ (rm.col c).rcTried = false

variable {rm}

theorem mem_errors {c} : c ∈ rm.errors ↔ c < rm.rmCol.length ∧ (rm.col c).rcError ≠ none := by
  simp [errors]

theorem mem_dataErrors {c} : c ∈ rm.dataErrors ↔
    (c < rm.rmCol.length ∧ (rm.col c).rcError ≠ none) ∧ rm.rmFirstdatacol ≤ c := by
  simp [dataErrors, mem_errors]

end RaidzMap

theorem countP_zipIdx {α : Type} [Inhabited α] (l : List α) (p : α × ℕ → Bool) :
    l.zipIdx.countP p = ((Finset.range l.length).filter fun c => p (l.getD c default, c) = true).card := by
  have indexed : l.zipIdx = (List.range l.length).map fun c => (l.getD c default, c) := by
    apply ext_getElem
    · simp
    · intro i inside inside'
      have small : i < l.length := by simpa using inside
      simp [List.getElem?_eq_getElem small]
  rw [indexed, countP_map, countP_eq_length_filter]
  congr 2
  funext c
  simp

theorem foldl_countCol (first : ℕ) (cols : List (RaidzCol × ℕ)) (n : Counts) : let n' := cols.foldl (countCol first) n
    n'.ioNumerrors = n.ioNumerrors + cols.countP (fun e => e.1.rcError.isSome) ∧
    n'.dataErrors = n.dataErrors + cols.countP (fun e => e.1.rcError.isSome && decide (first ≤ e.2)) ∧
    n'.parityUntried = n.parityUntried +
      cols.countP (fun e => e.1.rcError.isNone && decide (e.2 < first) && !e.1.rcTried) := by
  induction cols generalizing n with
  | nil => exact ⟨rfl, rfl, rfl⟩
  | cons head tail ih =>
    obtain ⟨rc, c⟩ := head
    obtain ⟨numerrors, data, untried⟩ := ih (countCol first n (rc, c))
    simp only [foldl_cons, countP_cons]
    rw [numerrors, data, untried]
    cases error : rc.rcError with
    | some e =>
      by_cases parity : c < first
      · simp [countCol, error, parity, Nat.not_le.mpr parity]
        omega
      · simp [countCol, error, parity, Nat.not_lt.mp parity]
        omega
    | none =>
      by_cases parity : c < first <;> cases tried : rc.rcTried <;> simp [countCol, error, parity, tried]
      omega

theorem countCols_eq (rm) : (countCols rm).ioNumerrors = rm.errors.card ∧
    (countCols rm).dataErrors = rm.dataErrors.card ∧ (countCols rm).parityUntried = rm.parityUntried.card := by
  obtain ⟨numerrors, data, untried⟩ := foldl_countCol rm.rmFirstdatacol rm.rmCol.zipIdx ⟨none, 0, 0, 0, 0, 0⟩
  rw [countP_zipIdx, zero_add] at numerrors data untried
  refine ⟨numerrors.trans (congrArg Finset.card ?_), data.trans (congrArg Finset.card ?_),
    untried.trans (congrArg Finset.card ?_)⟩
  all_goals
    ext c
    simp [errors, dataErrors, parityUntried, col, Option.isSome_iff_ne_none, and_assoc]

theorem takeWhile_noError {cols : List RaidzCol} {i} (inside : i < cols.length) (error : cols[i].rcError ≠ none) :
    let n := (cols.takeWhile fun rc => rc.rcError.isNone).length
    n ≤ i ∧ ∃ small : n < cols.length, cols[n].rcError ≠ none := by
  induction cols generalizing i with
  | nil => simp at inside
  | cons head tail ih =>
    cases first : head.rcError with
    | some e => simp [first]
    | none =>
      cases i with
      | zero => exact absurd first error
      | succ i =>
        obtain ⟨le, small, error'⟩ := ih (Nat.lt_of_succ_lt_succ inside) error
        simp only [first, takeWhile_cons, Option.isNone_none, if_true, length_cons]
        exact ⟨Nat.succ_le_succ le, Nat.succ_lt_succ small, error'⟩

variable {rm : RaidzMap} {c : ℕ}

theorem findError_spec (after : c ≤ c') (error : c' ∈ rm.errors) :
    c ≤ findError rm c ∧ findError rm c ≤ c' ∧ findError rm c ∈ rm.errors := by
  obtain ⟨inside, error⟩ := mem_errors.mp error
  have inside' : c' - c < (rm.rmCol.drop c).length := by
    rw [length_drop]
    omega
  have at_ : (rm.rmCol.drop c)[c' - c] = rm.col c' := by
    rw [getElem_drop, col, getD_eq_getElem _ _ inside]
    congr 1
    omega
  obtain ⟨le, small, error'⟩ := takeWhile_noError inside' (at_ ▸ error)
  refine ⟨Nat.le_add_right _ _, ?_, mem_errors.mpr ⟨?_, ?_⟩⟩
  · rw [findError]
    omega
  · rw [findError]
    omega
  · rw [getElem_drop] at error'
    rwa [findError, col, getD_eq_getElem _ _ (by omega)]

theorem findError_one (one : rm.dataErrors.card = 1) : rm.dataErrors = {findError rm rm.rmFirstdatacol} := by
  obtain ⟨c, only⟩ := Finset.card_eq_one.mp one
  have member : c ∈ rm.dataErrors := by simp [only]
  obtain ⟨error, data⟩ := Finset.mem_filter.mp member
  obtain ⟨data', _, error'⟩ := findError_spec data error
  have found : findError rm rm.rmFirstdatacol ∈ rm.dataErrors := Finset.mem_filter.mpr ⟨error', data'⟩
  rw [only, Finset.mem_singleton] at found
  rw [only, found]

theorem findError_two (two : rm.dataErrors.card = 2) : let c1 := findError rm rm.rmFirstdatacol
    let c := findError rm (c1 + 1)
    rm.dataErrors = {c1, c} ∧ c1 < c := by
  intro c1 c
  obtain ⟨a, b, different, both⟩ := Finset.card_eq_two.mp two
  obtain ⟨errorA, dataA⟩ := Finset.mem_filter.mp (show a ∈ rm.dataErrors by simp [both])
  obtain ⟨errorB, dataB⟩ := Finset.mem_filter.mp (show b ∈ rm.dataErrors by simp [both])
  obtain ⟨data1, leA, error1⟩ := findError_spec dataA errorA
  obtain ⟨_, leB, _⟩ := findError_spec dataB errorB
  have found : c1 ∈ rm.dataErrors := Finset.mem_filter.mpr ⟨error1, data1⟩
  -- the other of the two comes after the first one found
  obtain ⟨other, errorO, afterO⟩ : ∃ other ∈ rm.errors, c1 + 1 ≤ other := by
    by_cases same : c1 = a
    · exact ⟨b, errorB, by omega⟩
    · exact ⟨a, errorA, by omega⟩
  obtain ⟨after, _, error⟩ := findError_spec afterO errorO
  have order : c1 < c := after
  have found' : c ∈ rm.dataErrors := Finset.mem_filter.mpr ⟨error, by omega⟩
  refine ⟨Eq.symm (Finset.eq_of_subset_of_card_le ?_ ?_), order⟩
  · intro i member
    rcases Finset.mem_insert.mp member with rfl | last
    · exact found
    · rwa [Finset.mem_singleton.mp last]
  · rw [two, Finset.card_pair order.ne]

/-! ## Reconstruction writes the lost columns only -/

theorem reconstructP_form (rm) (x : ℕ) : ∃ data : List Word,
    data.length = (rm.col x).rcData.length ∧ vdevRaidzReconstructP rm x = rm.setData x data :=
  ⟨_, by rw [length_foldl_xorInto, length_copyInto], rfl⟩

theorem RaidzMap.setData_self (rm : RaidzMap) (c : ℕ) : rm.setData c (rm.col c).rcData = rm := by
  have restored := @setData_restore rm c (rm.col c).rcData
  simp only [setData, setCol, modify_modify_eq] at restored
  exact restored

theorem reconstructQ_form (rm : RaidzMap) (x : ℕ) : ∃ data : List Word,
    data.length = (rm.col x).rcData.length ∧ vdevRaidzReconstructQ rm x = rm.setData x data := by
  rw [vdevRaidzReconstructQ]
  cases rm.sourcesBut x with
  | nil => exact ⟨(rm.col x).rcData, rfl, (rm.setData_self x).symm⟩
  | cons first rest =>
    exact ⟨_, by rw [length_map, length_xorInto, length_foldl_mulInto, length_copyZero], rfl⟩

theorem reconstructPq_form (rm) (x y : ℕ) : ∃ xd yd : List Word,
    xd.length = (rm.col x).rcData.length ∧ yd.length = (rm.col y).rcData.length ∧
      vdevRaidzReconstructPq rm x y = (rm.setData x xd).setData y yd :=
  ⟨_, _, length_copyInto _ _, length_copyInto _ _, rfl⟩

theorem RaidzMap.setData_error : ((rm.setData c data).col c').rcError = (rm.col c').rcError := by
  rw [setData_col]
  split_ifs <;> rfl

theorem RaidzMap.setData_tried : ((rm.setData c data).col c').rcTried = (rm.col c').rcTried := by
  rw [setData_col]
  split_ifs <;> rfl

theorem RaidzMap.setData_length (other : c' ≠ c) :
    ((rm.setData c data).col c').rcData.length = (rm.col c').rcData.length := by
  rw [setData_col, if_neg (fun same => other same.1)]

structure SameShape (rm rm' : RaidzMap) : Prop where
  firstdatacol : rm'.rmFirstdatacol = rm.rmFirstdatacol
  cols : rm'.rmCols = rm.rmCols
  length : rm'.rmCol.length = rm.rmCol.length
  size : ∀ c, (rm'.col c).rcSize = (rm.col c).rcSize
  buffer : ∀ c, (rm'.col c).rcData.length = (rm.col c).rcData.length

namespace SameShape

variable {rm : RaidzMap}

theorem refl (rm) : SameShape rm rm := ⟨rfl, rfl, rfl, fun _ => rfl, fun _ => rfl⟩

variable (same : SameShape rm rm')

include same

variable {c : ℕ}

theorem setCol (size : (f (rm'.col c)).rcSize = (rm'.col c).rcSize)
    (buffer : (f (rm'.col c)).rcData.length = (rm'.col c).rcData.length) : SameShape rm (rm'.setCol c f) := by
  have kept : ∀ c', ((rm'.setCol c f).col c').rcSize = (rm'.col c').rcSize ∧
      ((rm'.setCol c f).col c').rcData.length = (rm'.col c').rcData.length := by
    intro c'
    by_cases at_ : c' = c
    · subst at_
      by_cases inside : c' < rm'.rmCol.length
      · rw [col_setCol inside]
        exact ⟨size, buffer⟩
      · simp [RaidzMap.setCol, col, inside]
    · rw [col_setCol_ne at_]
      exact ⟨rfl, rfl⟩
  exact ⟨same.firstdatacol, same.cols, length_setCol.trans same.length,
    fun c' => (kept c').1.trans (same.size c'), fun c' => (kept c').2.trans (same.buffer c')⟩

theorem setData (length : data.length = (rm'.col c).rcData.length) : SameShape rm (rm'.setData c data) :=
  same.setCol rfl length

theorem setEcksum : SameShape rm (setEcksum rm' c) := same.setCol rfl rfl

end SameShape

/-! ## What is accepted has a valid checksum -/

theorem RaidzMap.ioData_setCol (keeps : ∀ rc, (f rc).rcData = rc.rcData) : (rm.setCol c f).ioData = rm.ioData := by
  have same : (rm.rmCol.modify c f).map RaidzCol.rcData = rm.rmCol.map RaidzCol.rcData := by
    apply ext_getElem?
    intro i
    simp only [getElem?_map, getElem?_modify]
    cases rm.rmCol[i]? with
    | none => rfl
    | some rc =>
      by_cases at_ : c = i
      · simp [at_, keeps]
      · simp [at_]
  simp [ioData, dataCols, setCol, flatMap_def, same]

theorem ioData_setEcksum : (setEcksum rm c).ioData = rm.ioData :=
  ioData_setCol fun _ => rfl

theorem RaidzMap.ioData_setData_parity (parity : c < rm.rmFirstdatacol) : (rm.setData c data).ioData = rm.ioData := by
  rw [ioData, setData, dataCols_setCol_parity parity, ioData]

theorem ioData_generateParity (parity : rm.rmFirstdatacol = 1 ∨ rm.rmFirstdatacol = 2) :
    (generateParity rm).ioData = rm.ioData := by
  rw [generateParity]
  split_ifs with one
  · rw [vdevRaidzGenerateParityP]
    cases rm.sources with
    | nil => rfl
    | cons first rest => exact ioData_setData_parity (by omega)
  · rw [vdevRaidzGenerateParityPq]
    cases rm.sources with
    | nil => rfl
    | cons first rest =>
      rw [ioData_setData_parity (by rw [setData_firstdatacol]; omega), ioData_setData_parity (by omega)]

/-- After generating the parity, `raidz_parity_verify` only sets errors of parity columns. -/
theorem parityVerify_rule {P : RaidzMap → Prop} (generated : P (generateParity rm))
    (step : ∀ rm' c, P rm' → P (setEcksum rm' c)) : P (raidzParityVerify rm).1 := by
  suffices loop : ∀ (todo : List ℕ) (acc : RaidzMap × ℕ), P acc.1 →
      P (todo.foldl (fun (acc : RaidzMap × ℕ) c =>
        if (rm.col c).rcTried ∧ (rm.col c).rcError = none ∧ (rm.col c).rcData ≠ ((generateParity rm).col c).rcData then
          (setEcksum acc.1 c, acc.2 + 1)
        else acc) acc).1 from loop _ _ generated
  intro todo
  induction todo with
  | nil => exact fun acc holds => holds
  | cons c rest ih =>
    intro acc holds
    rw [foldl_cons]
    apply ih
    split_ifs
    · exact step acc.1 c holds
    · exact holds

theorem ioData_parityVerify (rm) (parity : rm.rmFirstdatacol = 1 ∨ rm.rmFirstdatacol = 2) :
    (raidzParityVerify rm).1.ioData = rm.ioData :=
  parityVerify_rule (P := fun rm' => rm'.ioData = rm.ioData) (ioData_generateParity parity)
    fun _ _ same => ioData_setEcksum.trans same

theorem tryKnown_checksum
    (parity : rm.rmFirstdatacol = 1 ∨ rm.rmFirstdatacol = 2) (done : tryKnown env rm n = (rm', some unexpected)) :
    env.checksumOk rm'.ioData = true := by
  rw [tryKnown] at done
  split at done
  · split_ifs at done with valid
    · cases done
      exact (ioData_parityVerify rm parity).symm ▸ valid
    · cases done
      exact valid
    · cases done
  · set c := findError rm rm.rmFirstdatacol
    obtain ⟨dataP, _, formP⟩ := reconstructP_form rm c
    obtain ⟨dataQ, _, formQ⟩ := reconstructQ_form rm c
    simp only [formP, formQ] at done
    split_ifs at done with first valid again valid again
    all_goals cases done
    · exact (ioData_parityVerify (rm.setData c dataP) parity).symm ▸ valid
    · exact valid
    · exact (ioData_parityVerify (rm.setData c dataQ) parity).symm ▸ valid
    · exact valid
  · obtain ⟨rfl, valid⟩ := Prod.mk.inj done
    by_contra invalid
    rw [if_neg invalid] at valid
    cases valid
  · cases done

/-- A loop that reconstructs one column after the other either stops with a valid checksum or leaves the map as
    it was. -/
theorem tryEach_spec (env) (form : ∀ rm c, ∃ data, reconstruct rm c = rm.setData c data) (rm) (todo) :
    (∃ c ∈ todo, env.checksumOk (reconstruct rm c).ioData = true ∧
      tryEach env reconstruct rm todo = .ok (setEcksum (reconstruct rm c) c)) ∨
    (tryEach env reconstruct rm todo = .error rm ∧ ∀ c ∈ todo, env.checksumOk (reconstruct rm c).ioData = false) := by
  induction todo with
  | nil => exact Or.inr ⟨rfl, by simp⟩
  | cons c rest ih =>
    rw [tryEach]
    cases valid : env.checksumOk (reconstruct rm c).ioData with
    | true => exact Or.inl ⟨c, mem_cons_self, valid, if_pos rfl⟩
    | false =>
      obtain ⟨data, set⟩ := form rm c
      have back : (reconstruct rm c).setData c (rm.col c).rcData = rm := by rw [set, setData_restore]
      simp only [back, Bool.false_eq_true, if_false]
      rcases ih with ⟨c', member, valid', found⟩ | ⟨kept, invalid⟩
      · exact Or.inl ⟨c', mem_cons_of_mem c member, valid', found⟩
      · refine Or.inr ⟨kept, ?_⟩
        intro c' member
        rcases mem_cons.mp member with rfl | member
        · exact valid
        · exact invalid c' member

theorem mem_drop_range : i ∈ (List.range n).drop k ↔ k ≤ i ∧ i < n := by
  rw [mem_drop_iff_getElem]
  constructor
  · rintro ⟨j, inside, rfl⟩
    rw [length_range] at inside
    rw [getElem_range]
    omega
  · rintro ⟨after, inside⟩
    refine ⟨i - k, by rw [length_range]; omega, ?_⟩
    rw [getElem_range]
    omega

theorem RaidzMap.setData_setData : (rm.setData c data).setData c data' = rm.setData c data' := by
  simp only [setData, setCol, modify_modify_eq]
  rfl

/-- The attempt on columns `c` and `c1`, when column `c` holds what an earlier attempt left. -/
def pairAttempt (rm : RaidzMap) (c c1 : ℕ) (data : List Word) : RaidzMap :=
  vdevRaidzReconstructPq (rm.setData c data) c c1

def PairFails (env : ReadEnv) (rm : RaidzMap) (c c1 : ℕ) : Prop :=
  ∃ data, data.length = (rm.col c).rcData.length ∧ env.checksumOk (pairAttempt rm c c1 data).ioData = false

/-- The inner loop leaves column `c` as the last attempt made it. -/
theorem tryPairs_spec (env : ReadEnv) (rm : RaidzMap) (others : c ∉ todo)
    (length : now.length = (rm.col c).rcData.length) :
    (∃ c1 ∈ todo, ∃ data, data.length = (rm.col c).rcData.length ∧
      env.checksumOk (pairAttempt rm c c1 data).ioData = true ∧
      tryPairs env c (rm.setData c now) todo = .ok (setEcksum (setEcksum (pairAttempt rm c c1 data) c) c1)) ∨
    (∃ data, tryPairs env c (rm.setData c now) todo = .error (rm.setData c data) ∧
      ∀ c1 ∈ todo, PairFails env rm c c1) := by
  induction todo generalizing now with
  | nil => exact Or.inr ⟨now, rfl, by simp⟩
  | cons c1 rest ih =>
    rw [tryPairs]
    rw [mem_cons, not_or] at others
    obtain ⟨different, others⟩ := others
    cases valid : env.checksumOk (pairAttempt rm c c1 now).ioData with
    | true => exact Or.inl ⟨c1, mem_cons_self, now, length, valid, if_pos valid⟩
    | false =>
      obtain ⟨xd, yd, lengthX, -, form⟩ := reconstructPq_form (rm.setData c now) c c1
      have next : xd.length = (rm.col c).rcData.length := by
        rw [lengthX, setData_col]
        split_ifs
        · exact length
        · rfl
      -- the second column is put back, the first one is not
      have back : (pairAttempt rm c c1 now).setData c1 ((rm.setData c now).col c1).rcData = rm.setData c xd := by
        have same : ((rm.setData c now).col c1).rcData = ((rm.setData c xd).col c1).rcData := by
          rw [setData_col, setData_col, if_neg (fun at_ => different at_.1.symm),
            if_neg (fun at_ => different at_.1.symm)]
        rw [pairAttempt, form, setData_setData, setData_setData, same, setData_self]
      unfold pairAttempt at valid back
      simp only [valid, back, Bool.false_eq_true, if_false]
      rcases ih others next with ⟨c', member, data, found⟩ | ⟨data, kept, invalid⟩
      · exact Or.inl ⟨c', mem_cons_of_mem c1 member, data, found⟩
      · refine Or.inr ⟨data, kept, ?_⟩
        intro c' member
        rcases List.mem_cons.mp member with rfl | member
        · exact ⟨now, length, valid⟩
        · exact invalid c' member

theorem tryAllPairs_spec (env : ReadEnv) (rm : RaidzMap) (todo : List ℕ) :
    (∃ c ∈ todo, ∃ c1, c < c1 ∧ c1 < rm.rmCols ∧ ∃ data, data.length = (rm.col c).rcData.length ∧
      env.checksumOk (pairAttempt rm c c1 data).ioData = true ∧
      tryAllPairs env rm todo = .ok (setEcksum (setEcksum (pairAttempt rm c c1 data) c) c1)) ∨
    (tryAllPairs env rm todo = .error rm ∧ ∀ c ∈ todo, ∀ c1, c < c1 → c1 < rm.rmCols → PairFails env rm c c1) := by
  induction todo with
  | nil => exact Or.inr ⟨rfl, by simp⟩
  | cons c rest ih =>
    have others : c ∉ (List.range rm.rmCols).drop (c + 1) := by
      rw [mem_drop_range]
      omega
    have inner := tryPairs_spec env rm others rfl
    rw [setData_self] at inner
    rw [tryAllPairs]
    rcases inner with ⟨c1, member, data, length, valid, found⟩ | ⟨data, kept, invalid⟩
    · rw [mem_drop_range] at member
      simp only [found]
      exact Or.inl ⟨c, mem_cons_self, c1, member.1, member.2, data, length, valid, rfl⟩
    · simp only [kept, setData_restore]
      rcases ih with ⟨c', member, found⟩ | ⟨kept', invalid'⟩
      · exact Or.inl ⟨c', mem_cons_of_mem c member, found⟩
      · refine Or.inr ⟨kept', ?_⟩
        intro c' member c1 order inside
        rcases mem_cons.mp member with rfl | member
        · exact invalid c1 (mem_drop_range.mpr ⟨order, inside⟩)
        · exact invalid' c' member c1 order inside

/-! ## The combinatorial reconstruction -/

structure Accepted (env : ReadEnv) (rm rm' : RaidzMap) : Prop where
  valid : env.checksumOk rm'.ioData = true
  parity : ∀ c < rm.rmFirstdatacol, rm'.col c = rm.col c
  shape : SameShape rm rm'

theorem col_setEcksum_ne (other : c' ≠ c) : (setEcksum rm c).col c' = rm.col c' :=
  col_setCol_ne other

theorem stage_each_spec (env) (cond : Prop) [Decidable cond]
    (form : ∀ rm c, ∃ data : List Word, data.length = (rm.col c).rcData.length ∧ reconstruct rm c = rm.setData c data)
    (rm) :
    (∃ rm', stage cond (fun rm => tryEach env reconstruct rm rm.dataIdx) rm = .ok rm' ∧ Accepted env rm rm') ∨
    (stage cond (fun rm => tryEach env reconstruct rm rm.dataIdx) rm = .error rm ∧
      (cond → ∀ c, rm.rmFirstdatacol ≤ c → c < rm.rmCols → env.checksumOk (reconstruct rm c).ioData = false)) := by
  by_cases holds : cond
  · simp only [stage, if_pos holds]
    rcases tryEach_spec env (fun rm c => (form rm c).imp fun _ form => form.2) rm rm.dataIdx with
      ⟨c, member, valid, found⟩ | ⟨kept, invalid⟩
    · obtain ⟨data, length, set⟩ := form rm c
      refine Or.inl ⟨_, found, ?_, ?_, ?_⟩
      · rwa [ioData_setEcksum]
      · intro c' parity
        have other : c' ≠ c := by
          have := (mem_drop_range.mp member).1
          omega
        rw [col_setEcksum_ne other, set, setData_col_ne other]
      · rw [set]
        exact ((SameShape.refl rm).setData length).setEcksum
    · exact Or.inr ⟨kept, fun _ c data inside => invalid c (mem_drop_range.mpr ⟨data, inside⟩)⟩
  · simp only [stage, if_neg holds]
    exact Or.inr ⟨trivial, fun holds' => absurd holds' holds⟩

theorem stage_pairs_spec (env) (cond : Prop) [Decidable cond] (rm) :
    (∃ rm', stage cond (fun rm => tryAllPairs env rm rm.dataIdx.dropLast) rm = .ok rm' ∧ Accepted env rm rm') ∨
    (stage cond (fun rm => tryAllPairs env rm rm.dataIdx.dropLast) rm = .error rm ∧
      (cond → ∀ c c1, rm.rmFirstdatacol ≤ c → c < c1 → c1 < rm.rmCols → PairFails env rm c c1)) := by
  by_cases holds : cond
  · simp only [stage, if_pos holds]
    rcases tryAllPairs_spec env rm rm.dataIdx.dropLast with ⟨c, member, c1, order, _, data, length, valid, found⟩ |
      ⟨kept, invalid⟩
    · obtain ⟨xd, yd, lengthX, lengthY, form⟩ := reconstructPq_form (rm.setData c data) c c1
      refine Or.inl ⟨_, found, ?_, ?_, ?_⟩
      · rwa [ioData_setEcksum, ioData_setEcksum]
      · intro c' parity
        have after := (mem_drop_range.mp (mem_of_mem_dropLast member)).1
        have other : c' ≠ c := by omega
        have other1 : c' ≠ c1 := by omega
        rw [col_setEcksum_ne other1, col_setEcksum_ne other, pairAttempt, form, setData_col_ne other1,
          setData_col_ne other, setData_col_ne other]
      · rw [pairAttempt, form]
        refine SameShape.setEcksum (SameShape.setEcksum (SameShape.setData ?_ ?_))
        · exact ((SameShape.refl rm).setData length).setData lengthX
        · rw [lengthY, setData_length order.ne', setData_length order.ne', setData_length order.ne']
    · refine Or.inr ⟨kept, ?_⟩
      intro _ c c1 data order inside
      -- `c` is not the last column, since `c1` comes after it
      have early : c ∈ rm.dataIdx.dropLast := by
        rw [dropLast_eq_take, mem_take_iff_getElem]
        refine ⟨c - rm.rmFirstdatacol, ?_, ?_⟩
        · simp only [dataIdx, length_drop, length_range]
          omega
        · simp only [dataIdx, getElem_drop, getElem_range]
          omega
      exact invalid c early c1 order inside
  · simp only [stage, if_neg holds]
    exact Or.inr ⟨trivial, fun holds' => absurd holds' holds⟩

theorem combinatorial_spec (env) (rm) :
    (∃ rm', combinatorial env rm = .ok rm' ∧ Accepted env rm rm') ∨
    (combinatorial env rm = .error rm ∧ ((rm.col 0).rcError = none → ∀ c, rm.rmFirstdatacol ≤ c → c < rm.rmCols →
        env.checksumOk (vdevRaidzReconstructP rm c).ioData = false) ∧
      (1 < rm.rmFirstdatacol ∧ (rm.col 1).rcError = none → ∀ c, rm.rmFirstdatacol ≤ c → c < rm.rmCols →
        env.checksumOk (vdevRaidzReconstructQ rm c).ioData = false) ∧
      ((rm.col 0).rcError = none ∧ 1 < rm.rmFirstdatacol ∧ (rm.col 1).rcError = none →
        ∀ c c1, rm.rmFirstdatacol ≤ c → c < c1 → c1 < rm.rmCols → PairFails env rm c c1)) := by
  rw [combinatorial]
  rcases stage_each_spec env ((rm.col 0).rcError = none) reconstructP_form rm with ⟨rm', found, accepted⟩ | ⟨kept, failedP⟩
  · exact Or.inl ⟨rm', by rw [found, orElse, orElse], accepted⟩
  rw [kept]
  simp only [orElse]
  rcases stage_each_spec env (1 < rm.rmFirstdatacol ∧ (rm.col 1).rcError = none) reconstructQ_form rm
    with ⟨rm', found, accepted⟩ | ⟨kept, failedQ⟩
  · exact Or.inl ⟨rm', by rw [found], accepted⟩
  rw [kept]
  rcases stage_pairs_spec env
      ((rm.col 0).rcError = none ∧ 1 < rm.rmFirstdatacol ∧ (rm.col 1).rcError = none) rm with ⟨rm', found, accepted⟩ | ⟨kept, failedPq⟩
  · exact Or.inl ⟨rm', found, accepted⟩
  · exact Or.inr ⟨kept, failedP, failedQ, failedPq⟩

/-! ## First attempts that succeed -/

theorem tryKnown_none (none : rm.dataErrors = ∅)
    (valid : env.checksumOk rm.ioData = true) : (tryKnown env rm (countCols rm)).2.isSome := by
  have count : (countCols rm).dataErrors = 0 := by rw [(countCols_eq _).2.1, none, Finset.card_empty]
  simp only [tryKnown, count, valid, if_true]
  split_ifs <;> rfl

theorem tryKnown_one (one : rm.dataErrors = {c})
    (valid : env.checksumOk (if (rm.col 0).rcError = none then vdevRaidzReconstructP rm c
      else vdevRaidzReconstructQ rm c).ioData = true) : (tryKnown env rm (countCols rm)).2.isSome := by
  have count : rm.dataErrors.card = 1 := by rw [one, Finset.card_singleton]
  have found : findError rm rm.rmFirstdatacol = c := by
    have only := findError_one count
    rw [one] at only
    exact (Finset.singleton_inj.mp only).symm
  rw [← (countCols_eq _).2.1] at count
  simp only [tryKnown, count, found, valid, if_true]
  split_ifs <;> rfl

theorem tryKnown_two (two : rm.dataErrors = {c, c'}) (order : c < c')
    (valid : env.checksumOk (vdevRaidzReconstructPq rm c c').ioData = true) :
    (tryKnown env rm (countCols rm)).2.isSome := by
  have count : rm.dataErrors.card = 2 := by rw [two, Finset.card_pair order.ne]
  obtain ⟨both, order'⟩ := findError_two count
  obtain ⟨first, second⟩ : findError rm rm.rmFirstdatacol = c ∧
      findError rm (findError rm rm.rmFirstdatacol + 1) = c' := by
    rw [two] at both
    have left : c ∈ ({c, c'} : Finset ℕ) := by simp
    have right : c' ∈ ({c, c'} : Finset ℕ) := by simp
    rw [both] at left right
    simp only [Finset.mem_insert, Finset.mem_singleton] at left right
    omega
  rw [← (countCols_eq _).2.1] at count
  rw [first] at second
  simp only [tryKnown, count, first, second, valid, if_true]
  rfl

/-! ## `vdev_raidz_io_done` -/

def resetMissing (rm : RaidzMap) : RaidzMap := { rm with rmMissingdata := 0, rmMissingparity := 0 }

def firstAttempt (env : ReadEnv) (rm : RaidzMap) : RaidzMap × Option ℕ :=
  if (countCols rm).ioNumerrors ≤ rm.rmFirstdatacol - (countCols rm).parityUntried then tryKnown env rm (countCols rm)
  else (rm, none)

theorem ioDone_of_success (attempt : firstAttempt env rm = (rm', some unexpected)) :
    vdevRaidzIoDone env rm = .done rm' none unexpected := by
  simp only [vdevRaidzIoDone]
  rw [firstAttempt] at attempt
  rw [attempt]

theorem ioDone_of_failure (attempt : firstAttempt env rm = (rm', none)) : vdevRaidzIoDone env rm =
      if (resetMissing rm').rmCol.any (fun rc => !rc.rcTried) then .reread (resetMissing rm')
      else if (resetMissing rm').rmFirstdatacol ≤ (countCols rm).ioNumerrors then
        .done (resetMissing rm') (countCols rm).ioError 1
      else
        match combinatorial env (resetMissing rm') with
        | .ok rm'' => .done rm'' none 1
        | .error rm'' => .done rm'' (some .ecksum) 1 := by
  simp only [vdevRaidzIoDone]
  rw [firstAttempt] at attempt
  rw [attempt]
  rfl

end MacZfs.Raidz
