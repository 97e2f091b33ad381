import MacZfs.Metaslab.Done

/-!
# The invariant of a metaslab group

All metaslabs of a group share one ledger; each range has its own part of it. `T` is the last
transaction group that is done for the whole group. While `T + 1` is finishing, `msSynced` says
for which metaslabs its `metaslab_sync_done` has run. A metaslab with anything in the maps of a
transaction group is on the list that `vdev_sync` or `vdev_sync_done` will take it from.
-/

namespace MacZfs

open Extents Checked MetaslabGroup

attribute [local irreducible] txgSlot txgClean

variable {vd : Vdev}

def Vdev.msRange (vd : Vdev) (i : Fin vd.vdevMsCount) : MapRange where
  start := i * 2 ^ vd.vdevMsShift
  size := 2 ^ vd.vdevMsShift
  shift := vd.vdevAshift
  nonempty := Nat.two_pow_pos _
  bounded := by
    have last : (i + 1) * 2 ^ vd.vdevMsShift ≤ vd.vdevMsCount * 2 ^ vd.vdevMsShift :=
      Nat.mul_le_mul_right _ i.isLt
    have := vd.bounded
    rw [Nat.add_mul, Nat.one_mul] at last
    omega
  alignedStart := Dvd.dvd.mul_left (Nat.pow_dvd_pow 2 vd.unit_le) _
  alignedSize := Nat.pow_dvd_pow 2 vd.unit_le

theorem Vdev.msRange_le (vd : Vdev) (i : Fin vd.vdevMsCount) :
    (vd.msRange i).start + (vd.msRange i).size ≤ 2 ^ 63 := by
  have last : (i + 1) * 2 ^ vd.vdevMsShift ≤ vd.vdevMsCount * 2 ^ vd.vdevMsShift :=
    Nat.mul_le_mul_right _ i.isLt
  have := vd.bounded
  simp only [msRange]
  rw [add_mul, one_mul] at last
  omega

theorem Vdev.encodable (vd : Vdev) (i : Fin vd.vdevMsCount) : (vd.msRange i).Encodable (vd.msRange i).set := by
  intro x inside
  have bounds := Finset.mem_Ico.mp inside
  simp only [msRange] at bounds ⊢
  have pow : 2 ^ vd.vdevMsShift ≤ 2 ^ 47 * 2 ^ vd.vdevAshift := by
    rw [← pow_add, add_comm]
    exact Nat.pow_le_pow_right (by omega) vd.units
  rw [Nat.div_lt_iff_lt_mul (Nat.two_pow_pos _)]
  omega

theorem Vdev.msRange_unique (vd : Vdev) {i j x}
    (left : x ∈ (vd.msRange i).set) (right : x ∈ (vd.msRange j).set) : i = j := by
  have index : ∀ k : Fin vd.vdevMsCount, x ∈ (vd.msRange k).set → x / 2 ^ vd.vdevMsShift = k := by
    intro k inside
    have bounds := Finset.mem_Ico.mp inside
    exact Nat.div_eq_of_lt_le bounds.1 (by rw [add_mul, one_mul]; exact bounds.2)
  exact Fin.ext ((index i left).symm.trans (index j right))

structure MgInv (vd : Vdev) (T : ℕ) (finishing : Bool) (msSynced : Fin vd.vdevMsCount → ℕ)
    (ledger : Ledger ℕ) (mg : MetaslabGroup vd) : Prop where
  books : ∀ i, MsInv (vd.msRange i) (msSynced i) ledger (mg.vdevMs i)
  synced : ∀ i, msSynced i = T ∨ finishing = true ∧ msSynced i = T + 1
  dirty : ∀ i t, Live T t → ((mg.vdevMs i).allocs t).Nonempty ∨ ((mg.vdevMs i).frees t).Nonempty →
    i ∈ mg.vdevMsList (txgSlot t)
  waiting : ∀ i, msSynced i = T → ((mg.vdevMs i).frees T).Nonempty → i ∈ mg.vdevMsList (txgSlot T)
  unfinished : ∀ i ∈ mg.vdevMsList (txgSlot T), msSynced i = T
  ahead : ∀ i, msSynced i = T + 1 → (mg.vdevMs i).allocs T = ∅ ∧ (mg.vdevMs i).frees T = ∅
  nodup : ∀ s, (mg.vdevMsList s).Nodup
  closed : finishing = true → mg.vdevMsList (txgSlot (T + 1)) = []

/-- The transaction groups that space may be allocated and freed in: the live ones, without the
    one that is finishing. -/
structure Usable (T : ℕ) (finishing : Bool) (txg : ℕ) : Prop where
  live : Live T txg
  open_ : finishing = true → txg ≠ T + 1

variable {T : ℕ} {finishing : Bool} {msSynced : Fin vd.vdevMsCount → ℕ} {ledger : Ledger ℕ}
  {mg : MetaslabGroup vd}

theorem Usable.live_ms {txg} (usable : Usable T finishing txg) (inv : MgInv vd T finishing msSynced ledger mg)
    (i : Fin vd.vdevMsCount) : Live (msSynced i) txg := by
  have live := usable.live
  have open_ := usable.open_
  simp only [Live, txgConcurrentStates] at live ⊢
  rcases inv.synced i with same | ⟨isFinishing, same⟩
  · omega
  · have := open_ isFinishing
    omega

/-! ## Lists -/

section TxgList

variable {α : Type} [DecidableEq α] {list : ℕ → List α} {x y : α} {txg s : ℕ}

theorem mem_txgListAdd_self (list : ℕ → List α) (x : α) (txg) : x ∈ txgListAdd list x txg (txgSlot txg) := by
  unfold txgListAdd
  split
  · assumption
  · simp

theorem mem_txgListAdd_of_mem (member : y ∈ list s) : y ∈ txgListAdd list x txg s := by
  unfold txgListAdd
  split
  · exact member
  · by_cases same : s = txgSlot txg
    · subst same
      simp [member]
    · simpa [Function.update_of_ne same] using member

theorem txgListAdd_other (ne : s ≠ txgSlot txg) : txgListAdd list x txg s = list s := by
  unfold txgListAdd
  split
  · rfl
  · exact Function.update_of_ne ne _ _

theorem nodup_txgListAdd (nodup : ∀ s, (list s).Nodup) (x : α) (txg s : ℕ) : (txgListAdd list x txg s).Nodup := by
  unfold txgListAdd
  split
  · exact nodup s
  · rename_i absent
    by_cases same : s = txgSlot txg
    · subst same
      rw [Function.update_self]
      exact List.nodup_cons.mpr ⟨absent, nodup _⟩
    · rw [Function.update_of_ne same]
      exact nodup s

end TxgList

/-! ## One metaslab changes -/

@[simp]
theorem setMs_self (mg : MetaslabGroup vd) (i : Fin vd.vdevMsCount) (msp) :
    (mg.setMs i msp).vdevMs i = msp := Function.update_self _ _ _

theorem setMs_other (mg : MetaslabGroup vd) (msp) (ne : j ≠ i) :
    (mg.setMs i msp).vdevMs j = mg.vdevMs j := Function.update_of_ne ne _ _

/-- A metaslab changes, and the ledger with it inside its range; the books of the others do not
    notice. -/
theorem MgInv.books_setMs (books : ∀ i, MsInv (vd.msRange i) (msSynced i) ledger (mg.vdevMs i))
    (i : Fin vd.vdevMsCount) (own : MsInv (vd.msRange i) T' ledger' msp)
    (same : ∀ x, x ∉ (vd.msRange i).set → ledger' x = ledger x) :
    ∀ j, MsInv (vd.msRange j) (Function.update msSynced i T' j) ledger' ((mg.setMs i msp).vdevMs j) := by
  intro j
  by_cases eq : j = i
  · subst eq
    simpa using own
  · rw [setMs_other mg msp eq, Function.update_of_ne eq]
    obtain ⟨acc, log, old⟩ := books j
    exact ⟨acc, log, old.congr fun x inside =>
      same x fun other => eq (vd.msRange_unique inside other)⟩

theorem MgInv.setMs (inv : MgInv vd T finishing msSynced ledger mg) (i : Fin vd.vdevMsCount)
    (own : MsInv (vd.msRange i) (msSynced i) ledger msp) (allocs : msp.msAllocmap = (mg.vdevMs i).msAllocmap)
    (frees : msp.msFreemap = (mg.vdevMs i).msFreemap) : MgInv vd T finishing msSynced ledger (mg.setMs i msp) := by
  have books := MgInv.books_setMs inv.books i own fun _ _ => rfl
  rw [Function.update_eq_self] at books
  have allocs_eq : ∀ j t, ((mg.setMs i msp).vdevMs j).allocs t = (mg.vdevMs j).allocs t := by
    intro j t
    by_cases eq : j = i
    · subst eq
      rw [setMs_self, Metaslab.allocs, allocs, Metaslab.allocs]
    · rw [setMs_other mg msp eq]
  have frees_eq : ∀ j t, ((mg.setMs i msp).vdevMs j).frees t = (mg.vdevMs j).frees t := by
    intro j t
    by_cases eq : j = i
    · subst eq
      rw [setMs_self, Metaslab.frees, frees, Metaslab.frees]
    · rw [setMs_other mg msp eq]
  refine ⟨books, inv.synced, ?_, ?_, inv.unfinished, ?_, inv.nodup, inv.closed⟩
  · intro j t live some
    rw [allocs_eq, frees_eq] at some
    exact inv.dirty j t live some
  · intro j synced some
    rw [frees_eq] at some
    exact inv.waiting j synced some
  · intro j synced
    rw [allocs_eq, frees_eq]
    exact inv.ahead j synced

/-- A metaslab changes in the maps of one usable transaction group, and is on its list if they are
    not empty then. -/
theorem MgInv.touch (inv : MgInv vd T finishing msSynced ledger mg) {txg}
    (usable : Usable T finishing txg) (i : Fin vd.vdevMsCount)
    (own : MsInv (vd.msRange i) (msSynced i) ledger' msp) (same : ∀ x, x ∉ (vd.msRange i).set → ledger' x = ledger x)
    (allocs : ∀ s ≠ txgSlot txg, msp.msAllocmap s = (mg.vdevMs i).msAllocmap s)
    (frees : ∀ s ≠ txgSlot txg, msp.msFreemap s = (mg.vdevMs i).msFreemap s)
    (marked : mg' = mg ∨ mg' = mg.vdevDirty i txg) (listed : (msp.allocs txg).Nonempty ∨ (msp.frees txg).Nonempty →
      i ∈ mg'.vdevMsList (txgSlot txg)) :
    MgInv vd T finishing msSynced ledger' (mg'.setMs i msp) := by
  have unmoved : mg'.vdevMs = mg.vdevMs := by
    rcases marked with rfl | rfl <;> rfl
  have grows : ∀ s, ∀ j ∈ mg.vdevMsList s, j ∈ mg'.vdevMsList s := by
    intro s j member
    rcases marked with rfl | rfl
    · exact member
    · exact mem_txgListAdd_of_mem member
  have others : ∀ s ≠ txgSlot txg, mg'.vdevMsList s = mg.vdevMsList s := by
    intro s ne
    rcases marked with rfl | rfl
    · rfl
    · exact txgListAdd_other ne
  have live := usable.live
  refine ⟨?_, inv.synced, ?_, ?_, ?_, ?_, ?_, ?_⟩
  · have books := MgInv.books_setMs (unmoved ▸ inv.books) i own same
    rwa [Function.update_eq_self] at books
  · intro j t live' some
    by_cases eq : j = i
    · subst eq
      rw [setMs_self] at some
      by_cases eqTxg : t = txg
      · subst eqTxg
        exact listed some
      · have ne := live.slot_ne live' eqTxg
        rw [Metaslab.allocs, Metaslab.frees, allocs _ ne, frees _ ne] at some
        exact grows _ _ (inv.dirty j t live' some)
    · rw [setMs_other _ _ eq, unmoved] at some
      exact grows _ _ (inv.dirty j t live' some)
  · intro j synced some
    refine grows _ _ (inv.waiting j synced ?_)
    by_cases eq : j = i
    · subst eq
      rw [setMs_self, Metaslab.frees, frees _ live.slot_ne_done] at some
      exact some
    · rwa [setMs_other _ _ eq, unmoved] at some
  · intro j member
    exact inv.unfinished j (others _ live.slot_ne_done ▸ member)
  · intro j synced
    by_cases eq : j = i
    · subst eq
      rw [setMs_self, Metaslab.allocs, Metaslab.frees, allocs _ live.slot_ne_done, frees _ live.slot_ne_done]
      exact inv.ahead j synced
    · rw [setMs_other _ _ eq, unmoved]
      exact inv.ahead j synced
  · intro s
    rcases marked with rfl | rfl
    · exact inv.nodup s
    · exact nodup_txgListAdd inv.nodup i txg s
  · intro isFinishing
    have ne : txgSlot (T + 1) ≠ txgSlot txg :=
      live.slot_ne (live_next T) (usable.open_ isFinishing).symm
    exact (others _ ne).trans (inv.closed isFinishing)

theorem setMs_dirtyFirst (mg : MetaslabGroup vd) (i : Fin vd.vdevMsCount) (msp)
    (sm) (txg) : (mg.setMs i msp).dirtyFirst i sm txg = (mg.dirtyFirst i sm txg).setMs i msp := by
  unfold dirtyFirst
  split <;> rfl

theorem setMs_setMs (mg : MetaslabGroup vd) (i : Fin vd.vdevMsCount) (msp msp' : Metaslab) :
    (mg.setMs i msp).setMs i msp' = mg.setMs i msp' := by
  rw [setMs, setMs, setMs, Function.update_idem]

theorem dirtyFirst_cases (mg : MetaslabGroup vd) (i : Fin vd.vdevMsCount) (sm) (txg) :
    mg.dirtyFirst i sm txg = mg ∨ mg.dirtyFirst i sm txg = mg.vdevDirty i txg := by
  unfold dirtyFirst
  split
  · exact .inr rfl
  · exact .inl rfl

theorem mem_dirtyFirst (mg : MetaslabGroup vd)
    {txg} (on : sm.On R) (listed : sm.offsets.Nonempty → i ∈ mg.vdevMsList (txgSlot txg)) :
    i ∈ (mg.dirtyFirst i sm txg).vdevMsList (txgSlot txg) := by
  unfold dirtyFirst
  split
  · exact mem_txgListAdd_self _ _ _
  · rename_i some
    rw [on.space_eq_card, Finset.card_eq_zero] at some
    exact listed (Finset.nonempty_iff_ne_empty.mpr some)

/-! ## Allocating -/

/-- The sizes that are asked for fit the field of a DVA, which is far below `2 ^ 63`. -/
theorem Vdev.sizes (vd : Vdev) (i : Fin vd.vdevMsCount) (small : size < 2 ^ 63) :
    Sizes (vd.msRange i) size := ⟨vd.msRange_le i, small⟩

theorem Ledger.assign_outside {s region} (inside : s ⊆ region) (holding : Holding) {x}
    (outside : x ∉ region) : ledger.assign s holding x = ledger x :=
  if_neg fun member => outside (inside member)

/-- The end of an allocation or a claim: an interval leaves the in-core map of a metaslab and is
    recorded. -/
theorem MgInv.record (inv : MgInv vd T finishing msSynced ledger mg) {txg start size : ℕ}
    (usable : Usable T finishing txg) (small : size < 2 ^ 63) (i : Fin vd.vdevMsCount) (ppd : List ℕ)
    (removed : spaceMapRemove { (mg.vdevMs i).msMap with smPpd := ppd } start size = some sm)
    (recorded : groupRecord (mg.setMs i { mg.vdevMs i with msMap := sm }) i start size txg = some mg') :
    MgInv vd T finishing msSynced
        (ledger.assign (Finset.Ico start (start + size)) (.held txg)) mg' ∧
      ∀ x ∈ Finset.Ico start (start + size), ledger x = .idle := by
  simp only [groupRecord, setMs_self, Option.bind_eq_bind, Option.bind_eq_some_iff, Option.pure_def,
    Option.some.injEq] at recorded
  obtain ⟨allocmap, added, rfl⟩ := recorded
  obtain ⟨acc, log, books⟩ := inv.books i
  have live := usable.live_ms inv i
  obtain ⟨books', inside, idle⟩ := books.alloc live (vd.sizes i small) removed added
  refine ⟨?_, idle⟩
  rw [setMs_dirtyFirst, setMs_setMs]
  exact inv.touch usable i ⟨_, log, books'⟩ (fun x outside => Ledger.assign_outside inside _ outside)
    (fun s ne => setSlot_other _ _ ne) (fun _ _ => rfl) (dirtyFirst_cases _ _ _ _)
    fun _ => mem_dirtyFirst mg (books.allocOn _) fun some => inv.dirty i txg usable.live (.inl some)

end MacZfs
