import MacZfs.Metaslab.Class
import MacZfs.Metaslab.Run

/-!
# Giving back the copies of a failed allocation

`metaslab_alloc` that cannot place all copies of a block frees those it has placed, the last one
first, in the transaction group it took them in. The books of each metaslab, its ledger and its
accounts, say what that does: a copy that is taken and given back leaves them as they were,
whatever else the call has done to weights, cursors and maps that were not loaded.
-/

namespace MacZfs

open Option Extents Runs Checked Function

attribute [local irreducible] txgSlot txgClean

/-- The free set of a metaslab: its in-core map, or what `space_map_load` makes of it. -/
def Metaslab.freeSet (msp : Metaslab) : Option (Finset ℕ) :=
  (spaceMapLoad msp.msMap true .smFree msp.msSmo msp.msObject).map SpaceMap.offsets

theorem SpaceMap.Becomes.smOps_eq {sm sm' : SpaceMap} {offsets}
    (becomes : sm.Becomes sm' offsets) : sm'.smOps = sm.smOps := by
  have frame := becomes.frame
  injection frame

namespace Alloc

/-! ## The books of a metaslab -/

theorem mem_freeSet {R T ledger msp acc} (books : MsBooks R T ledger msp acc log) :
    ∃ free, msp.freeSet = some free ∧ ∀ x, x ∈ free ↔ x ∈ R.set ∧ ¬ acc.InUse x := by
  have loads : ∃ sm, spaceMapLoad msp.msMap true .smFree msp.msSmo msp.msObject = some sm ∧ sm.smLoaded = true := by
    cases isLoaded : msp.msMap.smLoaded with
    | true => exact ⟨msp.msMap, by rw [spaceMapLoad, if_pos isLoaded], isLoaded⟩
    | false =>
      obtain ⟨empty, -, old, rest, -, logOf⟩ := books.unloaded isLoaded
      obtain ⟨sm, load, -⟩ := spaceMapLoad_spec logOf books.mapOn isLoaded empty true .smFree
      exact ⟨_, load, rfl⟩
  obtain ⟨sm, load, isLoaded⟩ := loads
  exact ⟨sm.offsets, by rw [Metaslab.freeSet, load, map_some], (books.load load).loaded isLoaded⟩

theorem freeSet_eq {R T ledger ledger' msp msp'} (books : MsBooks R T ledger msp acc log)
    (books' : MsBooks R T ledger' msp' acc log') : msp'.freeSet = msp.freeSet := by
  obtain ⟨free, eq, member⟩ := mem_freeSet books
  obtain ⟨free', eq', member'⟩ := mem_freeSet books'
  rw [eq, eq', some.injEq]
  ext x
  rw [member', member]

structure Book where
  ledger : Ledger ℕ
  acc : Accounts ℕ

namespace Book

def take (book : Book) (txg : ℕ) (s : Finset ℕ) : Book :=
  ⟨book.ledger.assign s (.held txg), book.acc.allocate txg s⟩

def giveBack (book : Book) (txg : ℕ) (s : Finset ℕ) : Book :=
  ⟨book.ledger.assign s .idle, book.acc.release txg s⟩

theorem giveBack_take {book : Book} {txg s} (idle : ∀ x ∈ s, book.ledger x = .idle)
    (fresh : Disjoint s (book.acc.allocs txg)) : (book.take txg s).giveBack txg s = book := by
  obtain ⟨ledger, acc⟩ := book
  simp only [take, giveBack, Book.mk.injEq]
  constructor
  · funext x
    by_cases member : x ∈ s
    · simpa [Ledger.assign, member] using (idle x member).symm
    · simp [Ledger.assign, member]
  · have back : (acc.allocs txg ∪ s) \ s = acc.allocs txg :=
      Finset.union_sdiff_cancel_right fresh.symm
    simp [Accounts.allocate, Accounts.release, back]

end Book

/-! ## Groups -/

section Group

variable {vd : Vdev} {msSynced : Fin vd.vdevMsCount → ℕ} {mg mg' : MetaslabGroup vd}
  {books : Fin vd.vdevMsCount → Book} {txg size : ℕ}

def GroupBooked (msSynced : Fin vd.vdevMsCount → ℕ) (mg : MetaslabGroup vd)
    (books : Fin vd.vdevMsCount → Book) : Prop :=
  ∀ i, ∃ log, MsBooks (vd.msRange i) (msSynced i) (books i).ledger (mg.vdevMs i) (books i).acc log

def Armed (mg : MetaslabGroup vd) (i : Fin vd.vdevMsCount) : Prop := (mg.vdevMs i).msMap.smOps = true

/-- An interval that `txg` may give back to metaslab `i`. -/
structure Piece (mg : MetaslabGroup vd) (book : Book) (txg : ℕ) (i : Fin vd.vdevMsCount)
    (start size : ℕ) : Prop where
  armed : Armed mg i
  nonempty : 0 < size
  alignedStart : 2 ^ vd.vdevAshift ∣ start
  alignedSize : 2 ^ vd.vdevAshift ∣ size
  taken : Finset.Ico start (start + size) ⊆ book.acc.allocs txg
  held : ∀ x ∈ Finset.Ico start (start + size), book.ledger x = .held txg

variable {msp : Metaslab}

theorem GroupBooked.setMs (booked : GroupBooked msSynced mg books) (i : Fin vd.vdevMsCount) {book}
    (new : ∃ log, MsBooks (vd.msRange i) (msSynced i) book.ledger msp book.acc log) :
    GroupBooked msSynced (mg.setMs i msp) (Function.update books i book) := by
  intro j
  by_cases same : j = i
  · subst same
    rwa [setMs_self, update_self]
  · rw [setMs_other mg msp same, update_of_ne same]
    exact booked j

theorem GroupBooked.keep (booked : GroupBooked msSynced mg books) (i : Fin vd.vdevMsCount)
    (new : ∃ log, MsBooks (vd.msRange i) (msSynced i) (books i).ledger msp (books i).acc log) :
    GroupBooked msSynced (mg.setMs i msp) books := by
  have kept := booked.setMs i new
  rwa [update_eq_self] at kept

theorem armed_setMs {i j} (armed : Armed mg j) (ops : j = i → msp.msMap.smOps = true) : Armed (mg.setMs i msp) j := by
  by_cases same : j = i
  · subst same
    rw [Armed, setMs_self]
    exact ops rfl
  · rwa [Armed, setMs_other mg msp same]

theorem metaslabActivate_ops (activate : metaslabActivate msp weight = some msp') (ops : msp.msMap.smOps = true) :
    msp'.msMap.smOps = true := by
  unfold metaslabActivate at activate
  split at activate
  · simp only [bind_eq_bind, bind_eq_some_iff, pure_def, Option.some.injEq] at activate
    obtain ⟨sm, load, rfl⟩ := activate
    unfold spaceMapLoad at load
    split at load
    · rw [Option.some.injEq] at load
      exact load ▸ ops
    · simp only [bind_eq_bind, bind_eq_some_iff, guard_eq_some, exists_const, pure_def, Option.some.injEq] at load
      obtain ⟨-, -, -, -, -, -, rfl⟩ := load
      rfl
  · rw [Option.some.injEq] at activate
    exact activate ▸ ops

theorem spaceMapAlloc_ops (alloc : spaceMapAlloc meets sm size = some (res, sm')) : sm.smOps = true := by
  simp only [spaceMapAlloc, bind_eq_bind, bind_eq_some_iff, guard_eq_some, exists_const] at alloc
  exact alloc.1

theorem GroupBooked.record (booked : GroupBooked msSynced mg books)
    (live : ∀ i, Live (msSynced i) txg) (small : size < 2 ^ 63) (i : Fin vd.vdevMsCount)
    (armed : Armed mg i) {ppd : List ℕ} {start : ℕ} {sm : SpaceMap}
    (removed : spaceMapRemove { (mg.vdevMs i).msMap with smPpd := ppd } start size = some sm)
    (recorded : groupRecord (mg.setMs i { mg.vdevMs i with msMap := sm }) i start size txg = some mg') :
    let s := Finset.Ico start (start + size)
    GroupBooked msSynced mg' (Function.update books i ((books i).take txg s)) ∧
      Piece mg' ((books i).take txg s) txg i start size ∧
      ((books i).take txg s).giveBack txg s = books i ∧ s ⊆ (vd.msRange i).set ∧
      ∀ j, Armed mg j → Armed mg' j := by
  simp only [groupRecord, setMs_self, bind_eq_bind, bind_eq_some_iff, pure_def, Option.some.injEq] at recorded
  obtain ⟨allocmap, added, rfl⟩ := recorded
  obtain ⟨log, own⟩ := booked i
  have sizes := vd.sizes i small
  obtain ⟨own', inside, idle⟩ := own.alloc (live i) sizes removed added
  have mapOn : SpaceMap.On { (mg.vdevMs i).msMap with smPpd := ppd } (vd.msRange i) :=
    own.mapOn.setFlags _ _ ppd
  have bound := mapOn.remove_small sizes removed
  obtain ⟨nonempty, alignedStart, alignedSize, free⟩ := SpaceMap.remove_held mapOn.toWf bound removed
  have ops : sm.smOps = true := (SpaceMap.remove_becomes mapOn.toWf bound removed).smOps_eq.trans armed
  have fresh : Disjoint (Finset.Ico start (start + size)) ((books i).acc.allocs txg) := by
    rw [Finset.disjoint_left]
    intro x member allocated
    exact (own.not_inUse (free member)).2 (.inr (.inr ⟨txg, allocated⟩))
  rw [setMs_dirtyFirst, setMs_setMs]
  have sameMs : (mg.dirtyFirst i ((mg.vdevMs i).msAllocmap (txgSlot txg)) txg).vdevMs = mg.vdevMs := by
    unfold MetaslabGroup.dirtyFirst
    split <;> rfl
  have shift : (mg.vdevMs i).msMap.smShift = vd.vdevAshift := own.mapOn.shift_eq
  refine ⟨?_, ⟨?_, nonempty, shift ▸ alignedStart, shift ▸ alignedSize, ?_, ?_⟩,
    Book.giveBack_take idle fresh, inside, ?_⟩
  · refine GroupBooked.setMs ?_ i ⟨log, own'⟩
    intro j
    rw [sameMs]
    exact booked j
  · rw [Armed, setMs_self]
    exact ops
  · simp [Book.take, Accounts.allocate]
  · intro x member
    simp [Book.take, Ledger.assign, member]
  · intro j armed'
    exact armed_setMs (by rwa [Armed, sameMs]) fun _ => ops

/-- What `metaslab_group_alloc` does to the books. -/
def GroupOutcome (msSynced : Fin vd.vdevMsCount → ℕ) (mg' : MetaslabGroup vd)
    (books : Fin vd.vdevMsCount → Book) (txg size : ℕ) : Option ℕ → Prop
  | none => GroupBooked msSynced mg' books
  | some start => ∃ i, ∃ book : Book,
      GroupBooked msSynced mg' (Function.update books i book) ∧ Piece mg' book txg i start size ∧
      book.giveBack txg (Finset.Ico start (start + size)) = books i ∧
      Finset.Ico start (start + size) ⊆ (vd.msRange i).set

theorem groupAllocLoop_books {meets minDistance dva}
    (live : ∀ i, Live (msSynced i) txg) (small : size < 2 ^ 63) (rounds) (booked : GroupBooked msSynced mg books)
    (alloc : groupAllocLoop meets size txg minDistance dva rounds mg = some (res, mg')) :
    GroupOutcome msSynced mg' books txg size res ∧ ∀ i, Armed mg i → Armed mg' i := by
  induction rounds generalizing mg with
  | zero => simp [groupAllocLoop] at alloc
  | succ rounds ih =>
    rw [groupAllocLoop] at alloc
    split at alloc
    · simp only [Option.some.injEq, Prod.mk.injEq] at alloc
      obtain ⟨rfl, rfl⟩ := alloc
      exact ⟨booked, fun _ armed => armed⟩
    · rename_i i _
      obtain ⟨log, own⟩ := booked i
      dsimp only at alloc
      split at alloc
      · obtain ⟨outcome, keeps⟩ := ih (booked.keep i ⟨log, own.setWeight _⟩) alloc
        exact ⟨outcome, fun j armed => keeps j (armed_setMs armed fun same => same ▸ armed)⟩
      · simp only [bind_eq_bind, bind_eq_some_iff, Prod.exists] at alloc
        obtain ⟨msp, activate, found, sm, picked, alloc⟩ := alloc
        have own' := own.activate activate
        have stays : ∀ j, Armed mg j → Armed (mg.setMs i msp) j := fun j armed =>
          armed_setMs armed fun same => metaslabActivate_ops activate (same ▸ armed)
        have ops := spaceMapAlloc_ops picked
        obtain ⟨ppd, ⟨rfl, rfl⟩ | ⟨start, rfl, removed⟩⟩ := spaceMapAlloc_cases picked
        · rw [setMs_self, setMs_setMs] at alloc
          obtain ⟨outcome, keeps⟩ := ih (booked.keep i ⟨log, (own'.setPpd ppd).setWeight _⟩) alloc
          exact ⟨outcome, fun j armed => keeps j (armed_setMs armed fun _ => ops)⟩
        · simp only [bind_eq_some_iff, pure_def, Option.some.injEq, Prod.mk.injEq] at alloc
          obtain ⟨recorded, isRecorded, rfl, rfl⟩ := alloc
          have active := booked.keep i ⟨log, own'⟩
          obtain ⟨booked', piece, back, inside, keeps⟩ := active.record live small i
            (by rw [Armed, setMs_self]; exact ops) (by rw [setMs_self]; exact removed)
            (by rw [setMs_self, setMs_setMs]; exact isRecorded)
          exact ⟨⟨i, _, booked', piece, back, inside⟩, fun j armed => keeps j (stays j armed)⟩

/-- A piece can be given back at once, and the books are then those without it. -/
theorem GroupBooked.freeNow (booked : GroupBooked msSynced mg books)
    (live : ∀ i, Live (msSynced i) txg) (small : size < 2 ^ 63) {i start}
    (piece : Piece mg (books i) txg i start size) :
    ∃ msp, MacZfs.freeNow (mg.vdevMs i) start size txg = some msp ∧
      GroupBooked msSynced (mg.setMs i msp) (Function.update books i
        ((books i).giveBack txg (Finset.Ico start (start + size)))) ∧
      ∀ j, Armed mg j → Armed (mg.setMs i msp) j := by
  obtain ⟨log, own⟩ := booked i
  have allocOn := own.allocOn (txgSlot txg)
  have inMap : Finset.Ico start (start + size) ⊆ ((mg.vdevMs i).msAllocmap (txgSlot txg)).offsets :=
    fun x member => (own.allocs_eq txg (live i)).ge (piece.taken member)
  have used : ∀ x ∈ Finset.Ico start (start + size), (books i).acc.InUse x := fun x member =>
    .inr (.inr ⟨txg, piece.taken member⟩)
  obtain ⟨allocmap, removed, -⟩ := SpaceMap.remove_spec allocOn.toWf piece.nonempty
    (allocOn.shift_eq ▸ piece.alignedStart) (allocOn.shift_eq ▸ piece.alignedSize) inMap
  have takes : (mg.vdevMs i).msMap.Takes start size := by
    refine SpaceMap.takes_of_subset piece.nonempty (own.mapOn.shift_eq ▸ piece.alignedStart)
      (own.mapOn.shift_eq ▸ piece.alignedSize) ?_
    rw [own.mapOn.range_eq, ← allocOn.range_eq]
    exact inMap.trans allocOn.subset_range
  have fresh : Disjoint (mg.vdevMs i).msMap.offsets (Finset.Ico start (start + size)) := by
    rw [Finset.disjoint_left]
    intro x free member
    exact (own.not_inUse free).2 (used x member)
  obtain ⟨sm, added, becomes⟩ := SpaceMap.add_spec own.mapOn.toWf takes fresh
  have ops : sm.smOps = true := becomes.smOps_eq.trans piece.armed
  have freed : MacZfs.freeNow (mg.vdevMs i) start size txg =
      some { mg.vdevMs i with
        msAllocmap := setSlot (mg.vdevMs i).msAllocmap txg allocmap, msMap := sm } := by
    simp [MacZfs.freeNow, spaceMapFree, removed, added, guard_of ops]
  refine ⟨_, freed, booked.setMs i ⟨log, ?_⟩, fun j armed => armed_setMs armed fun _ => ops⟩
  exact (own.freeNow (live i) (vd.sizes i small) piece.held freed).1

end Group

/-! ## Classes -/

section Class

variable {cv : ClassVdevs}

abbrev ClassBooks (cv : ClassVdevs) := (v : Fin cv.count) → Fin (cv.vdev v).vdevMsCount → Book

variable {msSynced : (v : Fin cv.count) → Fin (cv.vdev v).vdevMsCount → ℕ}
  {mc mc' : MetaslabClass cv} {books : ClassBooks cv} {args : AllocArgs cv}

def ClassBooked (msSynced : (v : Fin cv.count) → Fin (cv.vdev v).vdevMsCount → ℕ)
    (mc : MetaslabClass cv) (books : ClassBooks cv) : Prop :=
  ∀ v, GroupBooked (msSynced v) (mc.mcGroup v) (books v)

def ClassBooks.put (books : ClassBooks cv) (v : Fin cv.count) (i : Fin (cv.vdev v).vdevMsCount)
    (book : Book) : ClassBooks cv :=
  Function.update books v (Function.update (books v) i book)

theorem ClassBooks.put_put (v : Fin cv.count) (i : Fin (cv.vdev v).vdevMsCount) (book book' : Book) :
    (books.put v i book).put v i book' = books.put v i book' := by
  simp [put]

theorem ClassBooks.put_self (v : Fin cv.count) (i : Fin (cv.vdev v).vdevMsCount) (book) :
    books.put v i book v i = book := by
  simp [put]

def KeepsArmed (mc mc' : MetaslabClass cv) : Prop :=
  ∀ v i, Armed (mc.mcGroup v) i → Armed (mc'.mcGroup v) i

theorem ClassBooked.setGroup (booked : ClassBooked msSynced mc books) {v} {mg own}
    (new : GroupBooked (msSynced v) mg own) :
    ClassBooked msSynced (mc.setGroup v mg) (Function.update books v own) := by
  intro w
  by_cases same : w = v
  · subst same
    simpa [MetaslabClass.setGroup] using new
  · simpa [MetaslabClass.setGroup, same] using booked w

theorem KeepsArmed.setGroup {v mg}
    (keeps : ∀ i, Armed (mc.mcGroup v) i → Armed mg i) : KeepsArmed mc (mc.setGroup v mg) := by
  intro w i armed
  by_cases same : w = v
  · subst same
    simpa [MetaslabClass.setGroup] using keeps i armed
  · simpa [MetaslabClass.setGroup, same] using armed

theorem charge_mcGroup (mc : MetaslabClass cv) (stats : SpaceStats cv) (v : Fin cv.count) (asize : ℕ) :
    (mc.charge stats v asize).mcGroup = mc.mcGroup := by
  unfold MetaslabClass.charge
  dsimp only
  split
  · split <;> rfl
  · split <;> rfl

/-- A DVA of this call, in metaslab `i` of vdev `v`. -/
structure Copy (mc : MetaslabClass cv) (books : ClassBooks cv) (txg : ℕ) (dva : Dva) (v : Fin cv.count)
    (i : Fin (cv.vdev v).vdevMsCount) : Prop where
  top : vdevLookupTop cv dva.dvaVdev = some v
  metaslab : dvaMetaslab (cv.vdev v) dva = some i
  piece : Piece (mc.mcGroup v) (books v i) txg i dva.dvaOffset (dvaSize (cv.vdev v) dva)
  small : dvaSize (cv.vdev v) dva < 2 ^ 63

/-- Giving back these copies one after the other leads to the books `base`. -/
inductive Undoes (mc : MetaslabClass cv) (txg : ℕ) (base : ClassBooks cv) :
    List Dva → ClassBooks cv → Prop
  | done : Undoes mc txg base [] base
  | copy {books : ClassBooks cv} {dva : Dva} {rest : List Dva} {v : Fin cv.count}
      {i : Fin (cv.vdev v).vdevMsCount} (here : Copy mc books txg dva v i)
      (then_ : Undoes mc txg base rest
        (books.put v i ((books v i).giveBack txg (dvaOffsets (cv.vdev v) dva)))) :
      Undoes mc txg base (dva :: rest) books

variable {txg : ℕ} {base : ClassBooks cv} {dva : List Dva}

theorem Undoes.mono (keeps : KeepsArmed mc mc')
    (undoes : Undoes mc txg base dva books) : Undoes mc' txg base dva books := by
  induction undoes with
  | done => exact .done
  | copy here _ ih =>
    exact .copy ⟨here.top, here.metaslab, { here.piece with armed := keeps _ _ here.piece.armed }, here.small⟩ ih

theorem classFreeDva_copy {freezeTxg dva v} {i} (live : ∀ v i, Live (msSynced v i) txg)
    (open_ : txg ≤ freezeTxg) (booked : ClassBooked msSynced mc books)
    (copy : Copy mc books txg dva v i) :
    ∃ mc', classFreeDva mc dva txg true freezeTxg = some mc' ∧ ClassBooked msSynced mc'
        (books.put v i ((books v i).giveBack txg (dvaOffsets (cv.vdev v) dva))) ∧
      KeepsArmed mc mc' := by
  obtain ⟨msp, freed, booked', keeps⟩ := (booked v).freeNow (live v) copy.small copy.piece
  refine ⟨mc.setGroup v ((mc.mcGroup v).setMs i msp), ?_, booked.setGroup booked', .setGroup keeps⟩
  simp [classFreeDva, copy.top, metaslabFreeDva, copy.metaslab, freed, not_lt.mpr open_]

theorem undo_spec (live : ∀ v i, Live (msSynced v i) txg) (open_ : txg ≤ freezeTxg)
    (booked : ClassBooked msSynced mc books) (undoes : Undoes mc txg base dva books) :
    ∃ mc', dva.foldlM (fun mc copy => classFreeDva mc copy txg true freezeTxg) mc = some mc' ∧
      ClassBooked msSynced mc' base := by
  induction dva generalizing mc books with
  | nil =>
    cases undoes
    exact ⟨mc, rfl, booked⟩
  | cons copy rest ih =>
    cases undoes with
    | copy here then_ =>
      obtain ⟨next, freed, booked', keeps⟩ := classFreeDva_copy live open_ booked here
      obtain ⟨last, all, booked''⟩ := ih booked' (then_.mono keeps)
      exact ⟨last, by rw [List.foldlM_cons, freed]; exact all, booked''⟩

/-! ## One copy -/

theorem vdevLookupTop_self (v : Fin cv.count) : vdevLookupTop cv (cv.vdev v).vdevId = some v := by
  cases found : vdevLookupTop cv (cv.vdev v).vdevId with
  | none =>
    have := List.find?_eq_none.mp found v (List.mem_finRange v)
    simp at this
  | some w =>
    have same := List.find?_some found
    rw [cv.ids w v (by simpa using same)]

theorem sectorField_eq (small : x < 2 ^ (len + 9)) (word : x < 2 ^ 64) (sectors : 512 ∣ x) :
    sectorField len x = x := by
  obtain ⟨k, rfl⟩ := sectors
  have div : (512 * k) >>> 9 = k := by
    omega
  have low : k < 2 ^ len := by
    have : 2 ^ (len + 9) = 2 ^ len * 512 := pow_add 2 len 9
    omega
  rw [sectorField, div, Nat.mod_eq_of_lt low, Nat.shiftLeft_eq, mul_comm]
  exact u64_of_lt word

theorem dvaSet_copy {start size v i} (fits : size < 2 ^ 33)
    (piece : Piece (mc.mcGroup v) book txg i start size) (own : books v i = book)
    (inside : Finset.Ico start (start + size) ⊆ ((cv.vdev v).msRange i).set) :
    Copy mc books txg (dvaSet (cv.vdev v).vdevId start size) v i ∧
      dvaOffsets (cv.vdev v) (dvaSet (cv.vdev v).vdevId start size) = Finset.Ico start (start + size) := by
  have unit : 512 ∣ 2 ^ (cv.vdev v).vdevAshift := pow_dvd_pow 2 (cv.ashift_ge v)
  have nonempty := piece.nonempty
  have first := inside (Finset.mem_Ico.mpr ⟨le_refl start, by omega⟩)
  have bounds := Finset.mem_Ico.mp first
  have index : start / 2 ^ (cv.vdev v).vdevMsShift = i := by
    refine Nat.div_eq_of_lt_le bounds.1 ?_
    rw [add_mul, one_mul]
    exact bounds.2
  have low : start < 2 ^ 63 := by
    have le := (cv.vdev v).msRange_le i
    omega
  have id : (dvaSet (cv.vdev v).vdevId start size).dvaVdev = (cv.vdev v).vdevId :=
    Nat.mod_eq_of_lt (cv.id_lt v)
  have offset : (dvaSet (cv.vdev v).vdevId start size).dvaOffset = start :=
    sectorField_eq (by omega) (by omega) (unit.trans piece.alignedStart)
  have asize : dvaSize (cv.vdev v) (dvaSet (cv.vdev v).vdevId start size) = size :=
    sectorField_eq (by omega) (by omega) (unit.trans piece.alignedSize)
  refine ⟨⟨?_, ?_, ?_, ?_⟩, ?_⟩
  · rw [id]
    exact vdevLookupTop_self v
  · have inBounds : start >>> (cv.vdev v).vdevMsShift < (cv.vdev v).vdevMsCount := by
      rw [Nat.shiftRight_eq_div_pow, index]
      exact i.isLt
    rw [dvaMetaslab, if_neg (not_not.mpr id), offset, dif_pos inBounds, some.injEq]
    exact Fin.ext ((Nat.shiftRight_eq_div_pow _ _).trans index)
  · rw [offset, asize, own]
    exact piece
  · rw [asize]
    omega
  · rw [dvaOffsets, offset, asize]

structure CopyOutcome (msSynced : (v : Fin cv.count) → Fin (cv.vdev v).vdevMsCount → ℕ)
    (mc mc' : MetaslabClass cv) (books : ClassBooks cv) (txg : ℕ) (found : Option Dva) : Prop where
  keeps : KeepsArmed mc mc'
  none_ : found = none → ClassBooked msSynced mc' books
  some_ : ∀ dva, found = some dva → ∃ books' v i, ClassBooked msSynced mc' books' ∧
    Copy mc' books' txg dva v i ∧
    books'.put v i ((books' v i).giveBack txg (dvaOffsets (cv.vdev v) dva)) = books

variable {found : Option Dva}

theorem CopyOutcome.after (outcome : CopyOutcome msSynced mc₁ mc' books txg found) (keeps : KeepsArmed mc mc₁) :
    CopyOutcome msSynced mc mc' books txg found :=
  { outcome with keeps := fun v i armed => outcome.keeps v i (keeps v i armed) }

section

variable (live : ∀ v i, Live (msSynced v i) args.txg) (fits : ∀ v, (cv.vdev v).psizeToAsize args.psize < 2 ^ 33)

include live fits

theorem allocFromGroups_spec (booked : ClassBooked msSynced mc books)
    (alloc : allocFromGroups args dva dshift groups mc = some (found, mc')) :
    CopyOutcome msSynced mc mc' books args.txg found := by
  induction groups generalizing mc with
  | nil =>
    obtain ⟨rfl, rfl⟩ := alloc
    exact ⟨fun _ _ armed => armed, fun _ => booked, by simp⟩
  | cons v rest ih =>
    simp only [allocFromGroups, bind_eq_bind, bind_eq_some_iff, Prod.exists] at alloc
    obtain ⟨offset, mg, call, alloc⟩ := alloc
    obtain ⟨outcome, armed⟩ :=
      groupAllocLoop_books (live v) ((fits v).trans (by decide)) _ (booked v) call
    have keeps : KeepsArmed mc (mc.setGroup v mg) := .setGroup armed
    cases offset with
    | none =>
      have same : ClassBooked msSynced ((mc.setGroup v mg).pass v) (update books v (books v)) :=
        booked.setGroup outcome
      rw [update_eq_self] at same
      exact (ih same alloc).after keeps
    | some start =>
      obtain ⟨rfl, rfl⟩ := alloc
      obtain ⟨i, book, booked', piece, back, inside⟩ := outcome
      have groups := charge_mcGroup (mc.setGroup v mg) args.stats v
        ((cv.vdev v).psizeToAsize args.psize)
      refine ⟨?_, by simp, ?_⟩
      · intro w i armed
        rw [groups]
        exact keeps w i armed
      · intro found isFound
        rw [Option.some.injEq] at isFound
        subst isFound
        have piece' : Piece (((mc.setGroup v mg).charge args.stats v
            ((cv.vdev v).psizeToAsize args.psize)).mcGroup v) book args.txg i start
            ((cv.vdev v).psizeToAsize args.psize) := by
          rw [groups]
          simpa [MetaslabClass.setGroup] using piece
        obtain ⟨copy, offsets⟩ := dvaSet_copy (fits v) piece' (books.put_self v i book) inside
        refine ⟨books.put v i book, v, i, ?_, copy, ?_⟩
        · intro w
          rw [groups]
          exact booked.setGroup booked' w
        · rw [offsets, books.put_self, back, books.put_put]
          simp [ClassBooks.put]

theorem allocRounds_spec (left) (booked : ClassBooked msSynced mc books)
    (alloc : allocRounds args dva rotor left mc = some (found, mc')) :
    CopyOutcome msSynced mc mc' books args.txg found := by
  induction left generalizing mc with
  | zero => simp [allocRounds] at alloc
  | succ left ih =>
    simp only [allocRounds, bind_eq_bind, bind_eq_some_iff, Prod.exists] at alloc
    obtain ⟨found', next, call, alloc⟩ := alloc
    have outcome := allocFromGroups_spec live fits booked call
    split at alloc
    · simp only [pure_def, Option.some.injEq, Prod.mk.injEq] at alloc
      obtain ⟨rfl, rfl⟩ := alloc
      exact outcome
    · rename_i again
      have nothing : found' = none := by
        cases found' <;> simp_all
      exact (ih (outcome.none_ nothing) alloc).after outcome.keeps

end

/-! ## All copies -/

/-- What the copies that were allocated leave behind can be undone. -/
theorem allocCopies_spec (live : ∀ v i, Live (msSynced v i) args.txg)
    (fits : ∀ v, (cv.vdev v).psizeToAsize args.psize < 2 ^ 33) (left)
    (booked : ClassBooked msSynced mc books) (undoes : Undoes mc args.txg base dva.reverse books)
    (alloc : allocCopies args left mc dva = some (all, mc', dva')) :
    ∃ books', ClassBooked msSynced mc' books' ∧ Undoes mc' args.txg base dva'.reverse books' := by
  induction left generalizing mc books dva with
  | zero =>
    obtain ⟨rfl, rfl, rfl⟩ := alloc
    exact ⟨books, booked, undoes⟩
  | succ left ih =>
    simp only [allocCopies, metaslabAllocDva, bind_eq_bind, bind_eq_some_iff, Prod.exists] at alloc
    obtain ⟨found, next, ⟨rotor, -, call⟩, alloc⟩ := alloc
    have outcome := allocRounds_spec live fits _ booked call
    cases found with
    | none =>
      obtain ⟨rfl, rfl, rfl⟩ := alloc
      exact ⟨books, outcome.none_ rfl, undoes.mono outcome.keeps⟩
    | some copy =>
      obtain ⟨books', v, i, booked', here, back⟩ := outcome.some_ copy rfl
      refine ih booked' ?_ alloc
      rw [List.reverse_append, List.reverse_singleton, List.singleton_append]
      refine .copy here ?_
      rw [back]
      exact undoes.mono outcome.keeps

end Class

/-! ## A failed allocation -/

variable {cv : ClassVdevs}

theorem setDvas_zero (count : ℕ) : Blkptr.zero.setDvas (List.replicate count zeroDva) = Blkptr.zero := by
  simp only [Blkptr.zero, Blkptr.setDvas, Blkptr.mk.injEq, and_true]
  funext d
  rw [List.getD_eq_getElem?_getD, List.getElem?_replicate]
  split <;> rfl

/-- The groups of the class are in a state that a run of each of them reaches, all with the same
    transaction groups. -/
def MetaslabClass.Reached (synced : ℕ) (finishing : Bool) (mc : MetaslabClass cv) : Prop :=
  ∀ v, ∃ ledger, (MgState.runs (cv.vdev v)).Reachable ⟨mc.mcGroup v, synced, finishing, ledger⟩

theorem MetaslabClass.Reached.booked {synced finishing} {mc : MetaslabClass cv}
    (reached : mc.Reached synced finishing) {txg} (usable : Usable synced finishing txg) :
    ∃ msSynced books, ClassBooked msSynced mc books ∧ ∀ v i, Live (msSynced v i) txg := by
  have each : ∀ v, ∃ msSynced books, GroupBooked msSynced (mc.mcGroup v) books ∧ ∀ i, Live (msSynced i) txg := by
    intro v
    obtain ⟨ledger, reachable⟩ := reached v
    obtain ⟨msSynced, inv⟩ := MgState.inv_of_reachable reachable
    choose acc log own using inv.books
    exact ⟨msSynced, fun i => ⟨ledger, acc i⟩, fun i => ⟨log i, own i⟩, usable.live_ms inv⟩
  choose msSynced books booked live using each
  exact ⟨msSynced, books, booked, live⟩

/-- When a copy finds no room, `metaslab_alloc` runs to its end, in a pool that is not frozen before
    `txg` and for a size that a DVA can hold: it reports `ENOSPC`, no metaslab's free set and no
    metaslab's alloc set of `txg` has changed, and the block pointer is still one of zeros. -/
theorem metaslab_alloc_undone {synced freezeTxg ndvas : ℕ} {finishing : Bool} {mc mc₁ : MetaslabClass cv}
    {args : AllocArgs cv} {dva : List Dva} (reached : mc.Reached synced finishing)
    (usable : Usable synced finishing args.txg) (unfrozen : args.txg ≤ freezeTxg)
    (fits : ∀ v, (cv.vdev v).psizeToAsize args.psize < 2 ^ 33)
    (failed : allocCopies args ndvas mc [] = some (false, mc₁, dva)) :
    ∃ mc', metaslabAlloc args mc Blkptr.zero ndvas freezeTxg = some (.enospc, mc', Blkptr.zero) ∧
      ∀ v i, ((mc'.mcGroup v).vdevMs i).freeSet = ((mc.mcGroup v).vdevMs i).freeSet ∧
        ((mc'.mcGroup v).vdevMs i).allocs args.txg = ((mc.mcGroup v).vdevMs i).allocs args.txg := by
  by_cases noVdev : mc.mcRotor = none
  · exact ⟨mc, by rw [metaslabAlloc, if_pos noVdev], fun _ _ => ⟨rfl, rfl⟩⟩
  obtain ⟨msSynced, base, booked, live⟩ := reached.booked usable
  obtain ⟨books, booked₁, undoes⟩ := allocCopies_spec live fits ndvas booked .done failed
  obtain ⟨mc', undone, booked'⟩ := undo_spec live unfrozen booked₁ undoes
  refine ⟨mc', ?_, ?_⟩
  · have undone : undoCopies args.txg freezeTxg mc₁ dva = some mc' := undone
    rw [metaslabAlloc, if_neg noVdev, failed]
    simp [undone, setDvas_zero]
  · intro v i
    obtain ⟨log, before⟩ := booked v i
    obtain ⟨log', after⟩ := booked' v i
    exact ⟨freeSet_eq before after, (after.allocs_eq _ (live v i)).trans (before.allocs_eq _ (live v i)).symm⟩

def oneVdev (msShift : ℕ) (unit : 9 ≤ msShift) (small : msShift ≤ 56) : ClassVdevs where
  count := 1
  vdev _ :=
    { vdevId := 0
      vdevMsShift := msShift
      vdevMsCount := 1
      vdevAshift := 9
      psizeToAsize := id
      bounded := by
        rw [Nat.one_mul]
        exact Nat.pow_lt_pow_right (by decide) (by omega)
      unit_le := unit
      units := small }
  vdevAsize _ := 2 ^ msShift
  mgAliquot _ := 2 ^ 19
  ids v w _ := Fin.ext (by omega)
  id_lt _ := Nat.two_pow_pos 32
  ashift_ge _ := le_refl 9

section Examples

variable {msShift : ℕ} {unit : 9 ≤ msShift} {small : msShift ≤ 56}

def emptyClass (msShift : ℕ) (unit : 9 ≤ msShift) (small : msShift ≤ 56) :
    MetaslabClass (oneVdev msShift unit small) where
  mcGroup v := (MgState.fresh ((oneVdev msShift unit small).vdev v)).mg
  mgBias _ := 0
  mcRotor := some ⟨0, Nat.one_pos⟩
  mcAllocated := 0

theorem emptyClass_reached : (emptyClass msShift unit small).Reached 0 false := fun v =>
  ⟨_, .first (MgState.fresh_initial ((oneVdev msShift unit small).vdev v))⟩

def onlyMs (mc : MetaslabClass (oneVdev msShift unit small)) : Metaslab :=
  (mc.mcGroup ⟨0, Nat.one_pos⟩).vdevMs ⟨0, Nat.one_pos⟩

def plainArgs {cv : ClassVdevs} (psize : ℕ) : AllocArgs cv where
  meets _ := 0
  stats := ⟨fun _ => 0, fun _ => 0, 0, 0⟩
  psize := psize
  txg := 1
  hintdva := none
  hintAvoid := false

end Examples

def tinyClass : MetaslabClass (oneVdev 12 tinyVdev.unit_le (by decide)) := emptyClass 12 _ _

/-- A vdev of `2 ^ 25` sectors. -/
def wideClass : MetaslabClass (oneVdev 34 (by decide) (by decide)) := emptyClass 34 _ _

/-- Two copies of eight sectors each: the first fills the vdev. -/
theorem metaslab_alloc_undone_tiny : ∃ mc',
    metaslabAlloc (plainArgs 4096) tinyClass Blkptr.zero 2 1 = some (.enospc, mc', Blkptr.zero) ∧
      (onlyMs mc').freeSet = (onlyMs tinyClass).freeSet ∧
      (onlyMs mc').allocs 1 = (onlyMs tinyClass).allocs 1 := by
  have fails : (allocCopies (plainArgs 4096) 2 tinyClass []).map (fun result => (result.1, result.2.2)) =
      some (false, [⟨0, 0, 4096, false⟩]) := by decide +kernel
  obtain ⟨⟨all, mc₁, dva⟩, failed, same⟩ := map_eq_some_iff.mp fails
  obtain ⟨rfl, -⟩ := same
  obtain ⟨mc', call, sets⟩ := metaslab_alloc_undone emptyClass_reached tinyUsable
    (le_refl 1) (fun v => by simp [oneVdev, plainArgs]) failed
  exact ⟨mc', call, sets _ _⟩

def freeSegs (msp : Metaslab) : Option (List SpaceSeg) :=
  (spaceMapLoad msp.msMap true .smFree msp.msSmo msp.msObject).map SpaceMap.smRoot

theorem freeSet_of_segs (msp) : msp.freeSet = (freeSegs msp).map cover := by
  rw [Metaslab.freeSet, freeSegs, Option.map_map]
  rfl

theorem metaslabAlloc_zero {args : AllocArgs cv} {mc mc' : MetaslabClass cv}
    (call : metaslabAlloc args mc Blkptr.zero ndvas freezeTxg = some (.enospc, mc', bp)) : bp = Blkptr.zero := by
  unfold metaslabAlloc at call
  split at call
  · simp only [Option.some.injEq, Prod.mk.injEq, true_and] at call
    exact call.2.symm
  · simp only [bind_eq_bind, bind_eq_some_iff, Prod.exists] at call
    obtain ⟨all, mc₁, dva, -, call⟩ := call
    cases all with
    | true => simp at call
    | false =>
      simp only [Bool.false_eq_true, if_false, bind_eq_some_iff, pure_def,
        Option.some.injEq, Prod.mk.injEq, true_and] at call
      obtain ⟨_, -, -, rfl⟩ := call
      exact setDvas_zero _

theorem not_undone_of_segs {msShift freezeTxg x : ℕ} {unit : 9 ≤ msShift} {small : msShift ≤ 56}
    {mc : MetaslabClass (oneVdev msShift unit small)} {args : AllocArgs (oneVdev msShift unit small)}
    {before after : List SpaceSeg} (first : freeSegs (onlyMs mc) = some before)
    (run : (metaslabAlloc args mc Blkptr.zero 2 freezeTxg).map
      (fun result => (result.1, freeSegs (onlyMs result.2.1))) = some (.enospc, some after))
    (free : x ∈ cover before) (lost : x ∉ cover after) :
    ∃ mc', metaslabAlloc args mc Blkptr.zero 2 freezeTxg = some (.enospc, mc', Blkptr.zero) ∧
      (onlyMs mc').freeSet ≠ (onlyMs mc).freeSet := by
  obtain ⟨⟨error, mc', bp⟩, call, same⟩ := Option.map_eq_some_iff.mp run
  simp only [Prod.mk.injEq] at same
  obtain ⟨rfl, last⟩ := same
  obtain rfl := metaslabAlloc_zero call
  refine ⟨mc', call, ?_⟩
  rw [freeSet_of_segs, freeSet_of_segs, first, last, map_some, map_some, ne_eq, Option.some.injEq]
  exact fun same => lost (same ▸ free)

/-- The same in a pool that was frozen before, where what is freed stays allocated, and with a size
    that the DVA cannot hold, where too little is freed. -/
theorem metaslab_alloc_not_undone :
    (∃ mc', metaslabAlloc (plainArgs 4096) tinyClass Blkptr.zero 2 0 = some (.enospc, mc', Blkptr.zero) ∧
      (onlyMs mc').freeSet ≠ (onlyMs tinyClass).freeSet) ∧
    ∃ mc', metaslabAlloc (plainArgs (2 ^ 33 + 512)) wideClass Blkptr.zero 2 1 =
        some (.enospc, mc', Blkptr.zero) ∧
      (onlyMs mc').freeSet ≠ (onlyMs wideClass).freeSet := by
  constructor
  · exact @not_undone_of_segs 12 0 0 _ _ tinyClass _ [⟨0, 2 ^ 12⟩] [] (by decide +kernel) (by decide +kernel)
      (by simp) (by simp)
  · exact @not_undone_of_segs 34 1 512 _ _ wideClass _ [⟨0, 2 ^ 34⟩] [⟨0, 512⟩, ⟨2 ^ 33 + 512, 2 ^ 34⟩]
      (by decide +kernel) (by decide +kernel) (by simp) (by simp)

end Alloc

end MacZfs
