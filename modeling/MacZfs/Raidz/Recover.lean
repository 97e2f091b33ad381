import MacZfs.Raidz.Attempts

/-! # Recovery

A read of a stripe of which no more columns fail than there is parity. The reasoning follows the phases of
`vdev_raidz_io_done`:

* what each column holds after a round of reads (`ColOk`, `Sound`),
* a failed attempt changes only columns that are known to be wrong (`Sound.tryKnown_failed`),
* when all columns were tried, either the known errors are all there is and the first attempt succeeds, or
  some column is silently wrong and the combinatorial reconstruction comes to it (`Sound.finish`).
-/

namespace MacZfs.Raidz

open Finset RaidzMap Stripe

/-! ## What a round of reads leaves -/

def Failing (env : ReadEnv) (dev : ℕ) (col : List Word) : Prop :=
  (env.child dev).isDead = true ∨ (env.child dev).ioError ≠ none ∨
    (List.range col.length).map (env.child dev).ioWord ≠ col

instance (env : ReadEnv) (dev : ℕ) (col : List Word) : Decidable (Failing env dev col) := by
  unfold Failing
  infer_instance

/-- The column of a map that was written as `col` on device `dev`. -/
structure ColOk (env : ReadEnv) (dev : ℕ) (col : List Word) (rc : RaidzCol) : Prop where
  size : rc.rcSize / 8 = col.length
  buffer : rc.rcData.length = col.length
  devidx : rc.rcDevidx = dev
  failing : rc.rcTried = true → rc.rcError ≠ none → Failing env dev col
  right : rc.rcTried = true → rc.rcError = none → ¬Failing env dev col → rc.rcData = col

namespace ColOk

variable {col : List Word} (ok : ColOk env dev col rc)

include ok

theorem childDone : ColOk env dev col (vdevRaidzChildDone (env.child rc.rcDevidx) rc) := by
  refine ⟨ok.size, by simp [vdevRaidzChildDone, ok.buffer], ok.devidx, ?_, ?_⟩
  · intro _ error
    rw [ok.devidx] at error
    exact Or.inr (Or.inl error)
  · intro _ _ works
    simp only [Failing, not_or, not_not] at works
    simp only [vdevRaidzChildDone, ok.buffer, ok.devidx]
    exact works.2.2

theorem dead (isDead : (env.child dev).isDead = true) :
    ColOk env dev col { rc with rcError := some error, rcTried := true, rcSkipped := skipped } :=
  ⟨ok.size, ok.buffer, ok.devidx, fun _ _ => Or.inl isDead, fun _ _ works => absurd (Or.inl isDead) works⟩

theorem untried (untried : rc.rcTried = false) :
    ColOk env dev col { rc with rcError := error, rcSkipped := skipped } := by
  refine ⟨ok.size, ok.buffer, ok.devidx, ?_, ?_⟩ <;>
    exact fun tried => absurd (untried.symm.trans tried) (by decide)

theorem setData {data} (length : data.length = rc.rcData.length) (error : rc.rcError ≠ none) :
    ColOk env dev col { rc with rcData := data } :=
  ⟨ok.size, length.trans ok.buffer, ok.devidx, ok.failing, fun _ none => absurd none error⟩

end ColOk

/-- A map for a stripe whose column `c` was written to device `dev c`. -/
structure Sound (st : Stripe) (env : ReadEnv) (dev : ℕ → ℕ) (rm : RaidzMap) : Prop where
  firstdatacol : rm.rmFirstdatacol = st.nparity
  cols : rm.rmCols = st.width
  length : rm.rmCol.length = st.width
  col : ∀ c < st.width, ColOk env (dev c) (st.column c) (rm.col c)

namespace Sound

variable (sound : Sound st env dev rm)

include sound

theorem fits : Fits st rm :=
  ⟨sound.firstdatacol, sound.cols, sound.length, fun c inside => (sound.col c inside).size,
    fun c inside => (sound.col c inside).buffer⟩

variable {c}

theorem setCol
    (ok : c < st.width → ColOk env (dev c) (st.column c) (f (rm.col c))) : Sound st env dev (rm.setCol c f) := by
  refine ⟨sound.firstdatacol, sound.cols, length_setCol.trans sound.length, ?_⟩
  intro c' inside
  by_cases same : c' = c
  · subst same
    rw [col_setCol (sound.length ▸ inside)]
    exact ok inside
  · rw [col_setCol_ne same]
    exact sound.col c' inside

theorem setData {data} (length : data.length = (rm.col c).rcData.length)
    (error : (rm.col c).rcError ≠ none) : Sound st env dev (rm.setData c data) :=
  sound.setCol fun inside => (sound.col c inside).setData length error

theorem countMissing : Sound st env dev (countMissing rm c) := by
  rw [Raidz.countMissing]
  split_ifs <;> exact ⟨sound.firstdatacol, sound.cols, sound.length, sound.col⟩

end Sound

variable {c : ℕ}

theorem col_countMissing : (countMissing rm c).col c' = rm.col c' := by
  rw [countMissing]
  split_ifs <;> rfl

theorem col_ioStartCol_ne (other : c' ≠ c) : (ioStartCol env rm c).col c' = rm.col c' := by
  simp only [ioStartCol]
  split_ifs
  · rw [col_setCol_ne other, col_countMissing]
  · rw [col_setCol_ne other, col_countMissing]
  · rw [col_setCol_ne other]
  · rfl

theorem Sound.ioStartCol (sound : Sound st env dev rm)
    (untried : (rm.col c).rcTried = false) : Sound st env dev (ioStartCol env rm c) := by
  simp only [Raidz.ioStartCol]
  split_ifs with isDead stale wanted
  · apply sound.countMissing.setCol
    intro inside
    rw [col_countMissing]
    have ok := sound.col c inside
    exact ok.dead (ok.devidx ▸ isDead)
  · apply sound.countMissing.setCol
    intro inside
    rw [col_countMissing]
    exact (sound.col c inside).untried untried
  · exact sound.setCol fun inside => (sound.col c inside).childDone
  · exact sound

theorem Sound.foldl_ioStartCol (todo : List ℕ)
    (sound : Sound st env dev rm) (once : todo.Nodup) (untried : ∀ c ∈ todo, (rm.col c).rcTried = false) :
    Sound st env dev (todo.foldl (Raidz.ioStartCol env) rm) := by
  induction todo generalizing rm with
  | nil => exact sound
  | cons c rest ih =>
    obtain ⟨fresh, once⟩ := List.nodup_cons.mp once
    apply ih (sound.ioStartCol (untried c List.mem_cons_self)) once
    intro c' member
    have other : c' ≠ c := by
      rintro rfl
      exact fresh member
    rw [col_ioStartCol_ne other]
    exact untried c' (List.mem_cons_of_mem c member)

theorem Sound.ioStart (sound : Sound st env dev rm)
    (untried : ∀ c < rm.rmCols, (rm.col c).rcTried = false) : Sound st env dev (vdevRaidzIoStart env rm) := by
  apply Sound.foldl_ioStartCol _ sound (List.nodup_reverse.mpr List.nodup_range)
  intro c member
  exact untried c (List.mem_range.mp (List.mem_reverse.mp member))

theorem col_readUntried (inside : c < rm.rmCol.length) :
    (readUntried env rm).col c = if (rm.col c).rcTried then rm.col c
      else vdevRaidzChildDone (env.child (rm.col c).rcDevidx) (rm.col c) := by
  simp [readUntried, col, List.getElem?_eq_getElem inside]

theorem Sound.readUntried (sound : Sound st env dev rm) : Sound st env dev (readUntried env rm) := by
  refine ⟨sound.firstdatacol, sound.cols, (List.length_map _).trans sound.length, ?_⟩
  intro c inside
  rw [col_readUntried (sound.length ▸ inside)]
  split_ifs
  · exact sound.col c inside
  · exact (sound.col c inside).childDone

theorem tried_readUntried (inside : c < rm.rmCol.length) : ((readUntried env rm).col c).rcTried = true := by
  rw [col_readUntried inside]
  split_ifs with tried
  · exact tried
  · rfl

/-! ## Failed attempts -/

/-- A failed attempt leaves a map for the same stripe with the same errors and parity, and the same columns
    tried. -/
structure Sound.Again (st : Stripe) (env : ReadEnv) (dev : ℕ → ℕ) (rm rm' : RaidzMap) : Prop where
  sound : Sound st env dev rm'
  error : ∀ c, (rm'.col c).rcError = (rm.col c).rcError
  tried : ∀ c, (rm'.col c).rcTried = (rm.col c).rcTried
  parity : ∀ c < rm.rmFirstdatacol, rm'.col c = rm.col c

namespace Sound

theorem Again.setData (again : Again st env dev rm rm') {c} {data}
    (length : data.length = (rm'.col c).rcData.length) (wrong : c ∈ rm.dataErrors) :
    Again st env dev rm (rm'.setData c data) := by
  obtain ⟨⟨_, error⟩, after⟩ := mem_dataErrors.mp wrong
  refine ⟨again.sound.setData length (again.error c ▸ error), fun c' => setData_error.trans (again.error c'),
    fun c' => setData_tried.trans (again.tried c'), ?_⟩
  intro c' parity
  rw [setData_col_ne (by omega), again.parity c' parity]

variable (sound : Sound st env dev rm)

include sound

theorem again : Again st env dev rm rm := ⟨sound, fun _ => rfl, fun _ => rfl, fun _ _ => rfl⟩

theorem tryKnown_failed (failed : tryKnown env rm (countCols rm) = (rm', none)) : Again st env dev rm rm' := by
  rw [tryKnown] at failed
  split at failed
  · split_ifs at failed
    · cases failed
    · cases failed
    · cases failed
      exact sound.again
  · rename_i one
    rw [(countCols_eq _).2.1] at one
    have error := findError_one one
    set c := findError rm rm.rmFirstdatacol
    have wrong : c ∈ rm.dataErrors := by simp [error]
    obtain ⟨dataP, lengthP, formP⟩ := reconstructP_form rm c
    obtain ⟨dataQ, lengthQ, formQ⟩ := reconstructQ_form rm c
    simp only [formP, formQ] at failed
    split_ifs at failed
    all_goals cases failed
    · exact sound.again.setData lengthP wrong
    · exact sound.again.setData lengthQ wrong
  · rename_i two
    rw [(countCols_eq _).2.1] at two
    obtain ⟨error, order⟩ := findError_two two
    dsimp only at failed error order
    set c1 := findError rm rm.rmFirstdatacol
    set c := findError rm (c1 + 1)
    have wrong1 : c1 ∈ rm.dataErrors := by simp [error]
    have wrong : c ∈ rm.dataErrors := by simp [error]
    obtain ⟨xd, yd, lengthX, lengthY, form⟩ := reconstructPq_form rm c1 c
    simp only [form] at failed
    obtain ⟨rfl, _⟩ := Prod.mk.inj failed
    exact (sound.again.setData lengthX wrong1).setData
      (lengthY.trans (setData_length order.ne').symm) wrong
  · cases failed
    exact sound.again

end Sound

/-! ## Attempts that must succeed -/

namespace Fits

variable (fits : Fits st rm)

include fits

theorem setData_right {k i} (inside : k < st.data.length) (other : i ≠ k → Right st rm (st.nparity + i)) :
    Right st (rm.setData (st.nparity + k) (st.column (st.nparity + k))) (st.nparity + i) := by
  have wide : st.nparity + k < rm.rmCol.length := by
    rw [fits.length, width]
    omega
  by_cases same : i = k
  · rw [Right, setData_col, if_pos ⟨by rw [same], wide⟩, same]
  · rw [Right, setData_col_ne (by omega)]
    exact other same

theorem ioData_restored {k} (inside : k < st.data.length)
    (others : ∀ k' < st.data.length, k' ≠ k → Right st rm (st.nparity + k')) :
    (rm.setData (st.nparity + k) (st.column (st.nparity + k))).ioData = st.data.flatten := by
  apply (fits.setData rfl).ioData_eq
  exact fun k' inside' => fits.setData_right inside (others k' inside')

theorem ioData_restored_two {k k'} (order : k < k') (inside : k' < st.data.length)
    (others : ∀ i < st.data.length, i ≠ k → i ≠ k' → Right st rm (st.nparity + i)) :
    ((rm.setData (st.nparity + k) (st.column (st.nparity + k))).setData (st.nparity + k')
      (st.column (st.nparity + k'))).ioData = st.data.flatten := by
  apply (fits.setData rfl).ioData_restored inside
  exact fun i inside' last => fits.setData_right (by omega) fun first => others i inside' first last

end Fits

/-! ## Few failures -/

def failed (st : Stripe) (env : ReadEnv) (dev : ℕ → ℕ) : Finset ℕ :=
  (Finset.range st.width).filter fun c => Failing env (dev c) (st.column c)

theorem mem_failed : c ∈ failed st env dev ↔ c < st.width ∧ Failing env (dev c) (st.column c) := by
  simp [failed]

inductive Left (st : Stripe) (bad : Finset ℕ) : Prop where
  | all (works : ∀ k < st.data.length, st.nparity + k ∉ bad)
  | one (k : ℕ) (inside : k < st.data.length) (fails : st.nparity + k ∈ bad)
      (works : ∀ k' < st.data.length, k' ≠ k → st.nparity + k' ∉ bad)
      (parity : 0 ∉ bad ∨ st.nparity = 2 ∧ 1 ∉ bad)
  | two (k k' : ℕ) (order : k < k') (inside : k' < st.data.length) (fails : st.nparity + k ∈ bad)
      (fails' : st.nparity + k' ∈ bad) (works : ∀ i < st.data.length, i ≠ k → i ≠ k' → st.nparity + i ∉ bad)
      (double : st.nparity = 2) (parityP : 0 ∉ bad) (parityQ : 1 ∉ bad)

theorem Left.of_card (few : bad.card ≤ st.nparity) : Left st bad := by
  have positive := st.parity
  have distinct : ∀ a b c, a ∈ bad → b ∈ bad → c ∈ bad → a < b → b < c → False := by
    intro a b c ha hb hc ab bc
    have three : 2 < bad.card :=
      two_lt_card.mpr ⟨a, ha, b, hb, c, hc, by omega, by omega, by omega⟩
    omega
  have single : ∀ a b, a ∈ bad → b ∈ bad → a < b → st.nparity = 2 := by
    intro a b ha hb ab
    have two : 1 < bad.card := one_lt_card.mpr ⟨a, ha, b, hb, by omega⟩
    omega
  by_cases exists_ : ∃ k < st.data.length, st.nparity + k ∈ bad
  · obtain ⟨k, inside, fails⟩ := exists_
    by_cases other : ∃ k' < st.data.length, k' ≠ k ∧ st.nparity + k' ∈ bad
    · -- name the two columns in their order
      obtain ⟨a, b, order, insideB, failsA, failsB⟩ : ∃ a b, a < b ∧ b < st.data.length ∧
          st.nparity + a ∈ bad ∧ st.nparity + b ∈ bad := by
        obtain ⟨k', inside', different, fails'⟩ := other
        rcases Nat.lt_or_gt_of_ne different with before | after
        · exact ⟨k', k, before, inside, fails', fails⟩
        · exact ⟨k, k', after, inside', fails, fails'⟩
      have double := single _ _ failsA failsB (by omega)
      refine .two a b order insideB failsA failsB ?_ double ?_ ?_
      · intro i _ notA notB failsI
        rcases lt_or_ge i a with before | after
        · exact distinct _ _ _ failsI failsA failsB (by omega) (by omega)
        · rcases lt_or_ge i b with before | after'
          · exact distinct _ _ _ failsA failsI failsB (by omega) (by omega)
          · exact distinct _ _ _ failsA failsB failsI (by omega) (by omega)
      · exact fun parity => distinct _ _ _ parity failsA failsB (by omega) (by omega)
      · exact fun parity => distinct _ _ _ parity failsA failsB (by omega) (by omega)
    · refine .one k inside fails ?_ ?_
      · exact fun k' inside' different fails' => other ⟨k', inside', different, fails'⟩
      · by_cases parityP : 0 ∈ bad
        · have double := single _ _ parityP fails (by omega)
          exact Or.inr ⟨double, fun parityQ => distinct _ _ _ parityP parityQ fails (by omega) (by omega)⟩
        · exact Or.inl parityP
  · exact .all fun k inside fails => exists_ ⟨k, inside, fails⟩

namespace Sound

variable (sound : Sound st env dev rm) (tried : ∀ c < st.width, (rm.col c).rcTried = true)

include sound

theorem parity_cases : rm.rmFirstdatacol = 1 ∨ rm.rmFirstdatacol = 2 := sound.firstdatacol ▸ st.parity

theorem mem_dataErrors_iff {c} :
    c ∈ rm.dataErrors ↔ ∃ k < st.data.length, c = st.nparity + k ∧ st.nparity + k ∈ rm.errors := by
  rw [mem_dataErrors, ← mem_errors, sound.firstdatacol]
  constructor
  · rintro ⟨member, after⟩
    have inside := (mem_errors.mp member).1
    rw [sound.length, width] at inside
    refine ⟨c - st.nparity, by omega, by omega, ?_⟩
    rwa [Nat.add_sub_cancel' after]
  · rintro ⟨k, inside, rfl, member⟩
    exact ⟨member, Nat.le_add_right _ _⟩

include tried

theorem works {c} (inside : c < st.width) (works : c ∉ failed st env dev) :
    (rm.col c).rcError = none ∧ Right st rm c := by
  have ok := sound.col c inside
  have good : ¬Failing env (dev c) (st.column c) := fun fails => works (mem_failed.mpr ⟨inside, fails⟩)
  have error : (rm.col c).rcError = none := by
    by_contra error
    exact good (ok.failing (tried c inside) error)
  exact ⟨error, ok.right (tried c inside) error good⟩

theorem errors_subset : rm.errors ⊆ failed st env dev := by
  intro c member
  obtain ⟨inside, error⟩ := mem_errors.mp member
  rw [sound.length] at inside
  exact mem_failed.mpr ⟨inside, (sound.col c inside).failing (tried c inside) error⟩

theorem parityUntried_eq : rm.parityUntried = ∅ := by
  rw [eq_empty_iff_forall_notMem]
  intro c member
  simp only [parityUntried, mem_filter, mem_range, sound.length] at member
  rw [tried c member.1] at member
  exact absurd member.2.2.2 (by decide)

section One

variable (accepts : env.checksumOk st.data.flatten = true) (inside : k < st.data.length)
  (others : ∀ k' < st.data.length, k' ≠ k → st.nparity + k' ∉ failed st env dev)

include others

theorem right_others : ∀ k' < st.data.length, k' ≠ k → Right st rm (st.nparity + k') := fun k' inside' different =>
  (sound.works tried (by rw [width]; omega) (others k' inside' different)).2

include accepts inside

theorem reconstructP_valid (parity : 0 ∉ failed st env dev) :
    env.checksumOk (vdevRaidzReconstructP rm (st.nparity + k)).ioData = true := by
  have right := right_others sound tried others
  have rightP := (sound.works tried (by rw [width]; omega) parity).2
  rw [reconstructP_eq sound.fits inside rightP right, sound.fits.ioData_restored inside right]
  exact accepts

theorem reconstructQ_valid (double : st.nparity = 2) (parity : 1 ∉ failed st env dev) :
    env.checksumOk (vdevRaidzReconstructQ rm (st.nparity + k)).ioData = true := by
  have right := right_others sound tried others
  have rightQ := (sound.works tried (by rw [width]; omega) parity).2
  rw [reconstructQ_eq sound.fits double inside rightQ right, sound.fits.ioData_restored inside right]
  exact accepts

end One

/-- The attempt on the two columns that fail, whatever an earlier one left in the first of them. -/
theorem pairAttempt_valid (accepts : env.checksumOk st.data.flatten = true) {k k'} (order : k < k')
    (inside : k' < st.data.length)
    (others : ∀ i < st.data.length, i ≠ k → i ≠ k' → st.nparity + i ∉ failed st env dev) (double : st.nparity = 2)
    (parityP : 0 ∉ failed st env dev) (parityQ : 1 ∉ failed st env dev) {data}
    (length : data.length = (rm.col (st.nparity + k)).rcData.length) :
    env.checksumOk (pairAttempt rm (st.nparity + k) (st.nparity + k') data).ioData = true := by
  have wide : st.nparity + k < st.width := by
    rw [width]
    omega
  have fits := sound.fits.setData (length.trans (sound.col _ wide).buffer)
  have kept : ∀ c < st.width, c ≠ st.nparity + k → c ∉ failed st env dev →
      Right st (rm.setData (st.nparity + k) data) c := by
    intro c inside' different works
    rw [Right, setData_col_ne different]
    exact (sound.works tried inside' works).2
  have right : ∀ i < st.data.length, i ≠ k → i ≠ k' → Right st (rm.setData (st.nparity + k) data) (st.nparity + i) :=
    fun i inside' first second => kept _ (by rw [width]; omega) (by omega) (others i inside' first second)
  have rightP := kept 0 (by omega) (by omega) parityP
  have rightQ := kept 1 (by omega) (by omega) parityQ
  rw [pairAttempt, reconstructPq_eq fits double right order inside rightP rightQ,
    fits.ioData_restored_two order inside right]
  exact accepts

section

variable (accepts : env.checksumOk st.data.flatten = true)

include accepts

theorem tryKnown_clean (works : ∀ k < st.data.length, st.nparity + k ∉ failed st env dev) :
    (tryKnown env rm (countCols rm)).2.isSome := by
  apply tryKnown_none
  · rw [eq_empty_iff_forall_notMem]
    intro c member
    obtain ⟨k, inside, _, error⟩ := sound.mem_dataErrors_iff.mp member
    exact works k inside (sound.errors_subset tried error)
  · rw [sound.fits.ioData_eq fun k inside => (sound.works tried (by rw [width]; omega) (works k inside)).2]
    exact accepts

/-- When every column that fails reported it, the first attempt succeeds. -/
theorem tryKnown_all (left : Left st (failed st env dev))
    (known : failed st env dev ⊆ rm.errors) : (tryKnown env rm (countCols rm)).2.isSome := by
  have same : rm.errors = failed st env dev := Finset.Subset.antisymm (sound.errors_subset tried) known
  have data : ∀ c, c ∈ rm.dataErrors ↔ _ := fun c => sound.mem_dataErrors_iff
  rw [same] at data
  cases left with
  | all works => exact sound.tryKnown_clean tried accepts works
  | one k inside fails works parity =>
    have only : rm.dataErrors = {st.nparity + k} := by
      ext c
      rw [data, mem_singleton]
      constructor
      · rintro ⟨k', inside', rfl, fails'⟩
        by_contra different
        exact works k' inside' (fun same => different (by rw [same])) fails'
      · rintro rfl
        exact ⟨k, inside, rfl, fails⟩
    apply tryKnown_one only
    split_ifs with noError
    · -- the parity did not report an error, so it does not fail
      apply sound.reconstructP_valid tried accepts inside works
      intro parityP
      exact (mem_errors.mp (known parityP)).2 noError
    · rcases parity with parityP | ⟨double, parityQ⟩
      · exact absurd (sound.works tried (by rw [width]; omega) parityP).1 noError
      · exact sound.reconstructQ_valid tried accepts inside works double parityQ
  | two k k' order inside fails fails' works double parityP parityQ =>
    have both : rm.dataErrors = {st.nparity + k, st.nparity + k'} := by
      ext c
      rw [data, mem_insert, mem_singleton]
      constructor
      · rintro ⟨i, inside', rfl, failsI⟩
        by_contra different
        exact works i inside' (fun same => different (Or.inl (by rw [same])))
          (fun same => different (Or.inr (by rw [same]))) failsI
      · rintro (rfl | rfl)
        · exact ⟨k, by omega, rfl, fails⟩
        · exact ⟨k', inside, rfl, fails'⟩
    have valid := sound.pairAttempt_valid tried accepts order inside works double parityP parityQ rfl
    rw [pairAttempt, setData_self] at valid
    exact tryKnown_two both (by omega) valid

/-- The combinatorial reconstruction comes to the columns that fail. -/
theorem combinatorial_succeeds (left : Left st (failed st env dev))
    (some_data : ∃ k < st.data.length, st.nparity + k ∈ failed st env dev) :
    ∃ rm', combinatorial env rm = .ok rm' ∧ Accepted env rm rm' := by
  rcases combinatorial_spec env rm with found | ⟨_, failedP, failedQ, failedPq⟩
  · exact found
  exfalso
  have noError : ∀ c < st.width, c ∉ failed st env dev → (rm.col c).rcError = none := fun c inside works =>
    (sound.works tried inside works).1
  have first := sound.firstdatacol
  have cols := sound.cols
  rw [width] at cols noError
  cases left with
  | all works =>
    obtain ⟨k, inside, fails⟩ := some_data
    exact works k inside fails
  | one k inside fails works parity =>
    rcases parity with parityP | ⟨double, parityQ⟩
    · have invalid := failedP (noError 0 (by omega) parityP) (st.nparity + k) (by omega) (by omega)
      rw [sound.reconstructP_valid tried accepts inside works parityP] at invalid
      cases invalid
    · have invalid := failedQ ⟨by omega, noError 1 (by omega) parityQ⟩ (st.nparity + k) (by omega) (by omega)
      rw [sound.reconstructQ_valid tried accepts inside works double parityQ] at invalid
      cases invalid
  | two k k' order inside fails fails' works double parityP parityQ =>
    obtain ⟨data, length, invalid⟩ := failedPq
      ⟨noError 0 (by omega) parityP, by omega, noError 1 (by omega) parityQ⟩ (st.nparity + k) (st.nparity + k')
      (by omega) (by omega) (by omega)
    rw [sound.pairAttempt_valid tried accepts order inside works double parityP parityQ length] at invalid
    cases invalid

end

end Sound

/-! ## Rounds -/

namespace Sound

variable (sound : Sound st env dev rm)

include sound

theorem firstAttempt_failed (attempt : firstAttempt env rm = (rm', none)) : Again st env dev rm (resetMissing rm') := by
  rw [firstAttempt] at attempt
  split_ifs at attempt
  · obtain ⟨⟨first, cols, length, col⟩, error, tried, parity⟩ := sound.tryKnown_failed attempt
    exact ⟨⟨first, cols, length, col⟩, error, tried, parity⟩
  · cases attempt
    exact ⟨⟨sound.firstdatacol, sound.cols, sound.length, sound.col⟩, fun _ => rfl, fun _ => rfl, fun _ _ => rfl⟩

theorem firstAttempt_checksum (attempt : firstAttempt env rm = (rm', some unexpected)) :
    env.checksumOk rm'.ioData = true := by
  rw [firstAttempt] at attempt
  split_ifs at attempt
  · exact tryKnown_checksum sound.parity_cases attempt
  · cases attempt

theorem any_untried : rm.rmCol.any (fun rc => !rc.rcTried) = false ↔ ∀ c < st.width, (rm.col c).rcTried = true := by
  rw [List.any_eq_false]
  constructor
  · intro all c inside
    rw [← sound.length] at inside
    have at_ := all _ (List.getElem_mem inside)
    rw [RaidzMap.col, List.getD_eq_getElem _ _ inside]
    simpa using at_
  · intro all rc member
    obtain ⟨c, inside, rfl⟩ := List.mem_iff_getElem.mp member
    have at_ := all c (sound.length ▸ inside)
    rw [RaidzMap.col, List.getD_eq_getElem _ _ inside] at at_
    simp [at_]

theorem ioDone_step : (∃ rm' unexpected, vdevRaidzIoDone env rm = .done rm' none unexpected ∧
      env.checksumOk rm'.ioData = true) ∨
    (∃ rm', vdevRaidzIoDone env rm = .reread rm' ∧ Sound st env dev rm') ∨
    ∀ c < st.width, (rm.col c).rcTried = true := by
  cases attempt : firstAttempt env rm with
  | mk rm' success =>
    cases success with
    | some unexpected =>
      exact Or.inl ⟨rm', unexpected, ioDone_of_success attempt, sound.firstAttempt_checksum attempt⟩
    | none =>
      right
      have again := sound.firstAttempt_failed attempt
      cases untried : (resetMissing rm').rmCol.any (fun rc => !rc.rcTried) with
      | true =>
        refine Or.inl ⟨resetMissing rm', ?_, again.sound⟩
        rw [ioDone_of_failure attempt, if_pos untried]
      | false =>
        right
        intro c inside
        rw [← again.tried c]
        exact again.sound.any_untried.mp untried c inside

/-- When everything was tried, the read ends with a valid checksum. -/
theorem finish (tried : ∀ c < st.width, (rm.col c).rcTried = true) (accepts : env.checksumOk st.data.flatten = true)
    (few : (failed st env dev).card ≤ st.nparity) :
    ∃ rm' unexpected, vdevRaidzIoDone env rm = .done rm' none unexpected ∧ env.checksumOk rm'.ioData = true := by
  have left := Left.of_card few
  have enough : (countCols rm).ioNumerrors ≤ rm.rmFirstdatacol - (countCols rm).parityUntried := by
    rw [(countCols_eq _).1, (countCols_eq _).2.2, sound.parityUntried_eq tried, card_empty, Nat.sub_zero,
      sound.firstdatacol]
    exact (card_le_card (sound.errors_subset tried)).trans few
  cases attempt : firstAttempt env rm with
  | mk rm' success =>
    cases success with
    | some unexpected => exact ⟨rm', unexpected, ioDone_of_success attempt, sound.firstAttempt_checksum attempt⟩
    | none =>
      have again := sound.firstAttempt_failed attempt
      have tried' : ∀ c < st.width, ((resetMissing rm').col c).rcTried = true := fun c inside =>
        (again.tried c).trans (tried c inside)
      have failure : (tryKnown env rm (countCols rm)).2.isSome = false := by
        rw [firstAttempt, if_pos enough] at attempt
        rw [attempt]
        rfl
      -- some column fails without an error, so there is parity to spare
      have silent : ¬failed st env dev ⊆ rm.errors := by
        intro known
        rw [sound.tryKnown_all tried accepts left known] at failure
        cases failure
      have spare : (countCols rm).ioNumerrors < st.nparity := by
        rw [(countCols_eq _).1]
        exact (card_lt_card ⟨sound.errors_subset tried, silent⟩).trans_le few
      have some_data : ∃ k < st.data.length, st.nparity + k ∈ failed st env dev := by
        by_contra none
        rw [sound.tryKnown_clean tried accepts fun k inside fails => none ⟨k, inside, fails⟩] at failure
        cases failure
      obtain ⟨rm'', found, accepted⟩ := again.sound.combinatorial_succeeds tried' accepts left some_data
      refine ⟨rm'', 1, ?_, accepted.valid⟩
      rw [ioDone_of_failure attempt, again.sound.any_untried.mpr tried', if_neg (by decide),
        if_neg (by rw [again.sound.firstdatacol]; omega), found]

end Sound

end MacZfs.Raidz
