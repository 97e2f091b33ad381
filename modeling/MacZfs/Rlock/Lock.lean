import MacZfs.Rlock.Reader

/-! # Lock

What `zfs_range_lock` does to the ranges in the tree: the lock is granted, or the thread leaves a mark and waits.
-/

namespace MacZfs.Rlock

open List Option

variable {zp : Znode} {new r : Rl} {stop : ℕ}

/-! ## Waiting -/

theorem Znode.Wf.grows_alloc (wf : zp.Wf) : zp.Grows zp.alloc 0 0 where
  wf := wf.alloc
  count b := by rw [if_neg (by omega)]; rfl
  handles := Perm.refl _
  cuts _ _ cut := cut
  tiled _ _ _ tiled := tiled
  known r member := .inl (mem_map_of_mem member)
  fresh := Nat.le_succ _

theorem Znode.Wf.marks (wf : zp.Wf) (member : r ∈ zp.zRangeAvl) (wanted : Rl → Rl)
    (keeps : ∀ r, (wanted r).grant = r.grant ∧ (wanted r).rCnt = r.rCnt ∧ (wanted r).rType = r.rType ∧
      (wanted r).rProxy = r.rProxy) :
    zp.Grows (zp.modify r wanted) 0 0 := by
  obtain ⟨A, B, tree⟩ := append_of_mem member
  have ordered := wf.ordered
  rw [tree] at ordered
  obtain ⟨same, cnt, type, proxy⟩ := keeps r
  simp only [Rl.grant, Grant.mk.injEq] at same
  obtain ⟨sameId, off, len, _⟩ := same
  have fits : (wanted r).Fits := by
    rw [Rl.Fits, off, len]
    exact ordered.around.2.1
  have kind : (wanted r).Kind := by
    cases wf.kinds r member with
    | writer isWriter original one => exact .writer (type.trans isWriter) (proxy.trans original) (cnt.trans one)
    | alone isReader original one => exact .alone (type.trans isReader) (proxy.trans original) (cnt.trans one)
    | proxy isReader isProxy used => exact .proxy (type.trans isReader) (proxy.trans isProxy) (cnt ▸ used)
  have replaced := wf.replaced tree (wanted r) fits kind sameId off len
  rw [Znode.modify, tree, avlModify_entry ordered rfl]
  refine replaced.grows wf (fun b => ?_) ?_ fun y => ?_
  · rw [if_neg (by omega)]
    simp only [cntAt_cons, Rl.countAt, Rl.Covers, off, len, type, cnt, add_zero]
    congr
  · cases original : r.rProxy <;> simp [Znode.grantsOf, proxy, original, (keeps r).1]
  · simp [CutAt, off, len]

/-! ## Readers -/

theorem writerAhead_mem (found : writerAhead stop L = some r) : r ∈ L := by
  induction L with
  | nil => simp [writerAhead] at found
  | cons next rest ih =>
    rw [writerAhead] at found
    split_ifs at found
    · rw [← Option.some.inj found]
      exact mem_cons_self
    · exact mem_cons_of_mem _ (ih found)

theorem writerAhead_none (ordered : Ordered L) (nothing : writerAhead stop L = none) :
    ∀ r ∈ L, r.rOff < stop → holdsOff r = false := by
  induction L with
  | nil => exact forall_mem_nil _
  | cons next rest ih =>
    obtain ⟨fits, sorted, later⟩ := ordered_cons.mp ordered
    rw [writerAhead] at nothing
    intro r member start
    have startNext : next.rOff ≤ r.rOff := by
      rcases mem_cons.mp member with rfl | member
      · exact le_rfl
      · have := later r member
        omega
    split_ifs at nothing with beyond held reaches
    · omega
    · rcases mem_cons.mp member with rfl | member
      · simpa using held
      · have := later r member
        rw [fits.stop_eq] at reaches
        omega
    · rcases mem_cons.mp member with rfl | member
      · simpa using held
      · exact ih sorted nothing r member start

theorem Znode.Wf.reader_of (wf : zp.Wf) (member : r ∈ zp.zRangeAvl) (free : holdsOff r = false) :
    r.rType = .reader := by
  cases wf.kinds r member with
  | writer type => simp [holdsOff, type] at free
  | alone type => exact type
  | proxy type => exact type

inductive Outcome (zp : Znode) (g : Grant) : Option Attempt → Prop
  | granted {zp' rl} (same : rl.grant = g) (locks : zp.Locks zp' g) : Outcome zp g (some (.granted zp' rl))
  | waits {zp'} (grows : zp.Grows zp' 0 0) : Outcome zp g (some (.waits zp'))

theorem waits_outcome (wf : zp.Wf) (member : r ∈ zp.zRangeAvl) (g : Grant) (wanted : Rl → Rl)
    (keeps : ∀ r, (wanted r).grant = r.grant ∧ (wanted r).rCnt = r.rCnt ∧ (wanted r).rType = r.rType ∧
      (wanted r).rProxy = r.rProxy) :
    Outcome zp g (some (.waits (zp.alloc.modify r wanted))) :=
  .waits (wf.grows_alloc.trans (wf.alloc.marks member wanted keeps) le_rfl le_rfl)

theorem zfsRangeLockReader_outcome (wf : zp.Wf) (fits : new.Fits) (type : new.rType = .reader)
    (original : new.rProxy = false) (one : new.rCnt = 1) (newId : new.id = zp.fresh) :
    Outcome zp new.grant (zfsRangeLockReader zp.alloc new) := by
  have ordered := wf.ordered
  let place := avlFind zfsRangeCompare new zp.zRangeAvl
  let prev := place.node.or place.before.getLast?
  have wait : ∀ r ∈ zp.zRangeAvl, Outcome zp new.grant (some (waitToRead zp.alloc r)) :=
    fun r member => waits_outcome wf member _ _ fun r => ⟨rfl, rfl, rfl, rfl⟩
  have add : (∀ r ∈ zp.zRangeAvl, r.rOff < new.rOff + new.rLen → new.rOff < r.rOff + r.rLen → holdsOff r = false) →
      Outcome zp new.grant (zfsRangeAddReader zp.alloc new prev place) := by
    intro free
    obtain ⟨zp', rl, result, same, locks⟩ := zfsRangeAddReader_locks wf new fits type original one newId
      fun r member start reach => wf.reader_of member (free r member start reach)
    exact result ▸ .granted same locks
  -- `A` are the entries that were passed
  have search : ∀ A B, zp.zRangeAvl = A ++ B → (∀ a ∈ A, new.rOff < a.rOff + a.rLen → holdsOff a = false) →
      Outcome zp new.grant (readerSearch zp.alloc new prev place B) := by
    intro A B tree before
    rw [readerSearch]
    cases ahead : writerAhead new.stop B with
    | some rl => exact wait rl (tree ▸ mem_append_right _ (writerAhead_mem ahead))
    | none =>
      refine add fun r member start reach => ?_
      rw [tree] at member ordered
      rcases mem_append.mp member with member | member
      · exact before r member reach
      · exact writerAhead_none (ordered_append.mp ordered).2.1 ahead r member (by rwa [fits.stop_eq])
  have prevCase : ∀ A r B, zp.zRangeAvl = A ++ r :: B → r.rOff ≤ new.rOff → prev = some r →
      Outcome zp new.grant (readerFrom zp.alloc new place prev) := by
    intro A r B tree start isPrev
    rw [tree] at ordered
    obtain ⟨before, fitsR, after⟩ := ordered.around
    have member : r ∈ zp.zRangeAvl := by simp [tree]
    have following : (avlFind zfsRangeCompare r zp.alloc.zRangeAvl).after = B := by
      rw [show zp.alloc.zRangeAvl = _ from tree, find_entry ordered rfl]
    have notBefore : ∀ a ∈ A, new.rOff < a.rOff + a.rLen → holdsOff a = false := by
      intro a inside reach
      have := before a inside
      omega
    rw [isPrev] at add search ⊢
    rw [readerFrom, following, fitsR.stop_eq]
    split_ifs with reach held inside
    · exact wait r member
    · refine add fun s inTree startS reachS => ?_
      rw [tree] at inTree
      rw [fits.stop_eq] at inside
      rcases mem_append.mp inTree with inA | inB
      · exact notBefore s inA reachS
      · rcases mem_cons.mp inB with rfl | inB
        · simpa using held
        · have := after s inB
          omega
    · refine search (A ++ [r]) B (by simp [tree]) fun a inside reachA => ?_
      rcases mem_append.mp inside with inA | same
      · exact notBefore a inA reachA
      · rw [mem_singleton.mp same]
        simpa using held
    · refine search (A ++ [r]) B (by simp [tree]) fun a inside reachA => ?_
      rcases mem_append.mp inside with inA | same
      · exact notBefore a inA reachA
      · rw [mem_singleton.mp same] at reachA
        omega
  show Outcome zp new.grant (readerFrom zp.alloc new place prev)
  rcases ordered.find new with ⟨A, r, B, tree, here, found⟩ | ⟨A, B, tree, below, above, found⟩
  · exact prevCase A r B tree here.le (by simp [prev, place, found])
  · rcases eq_nil_or_concat A with rfl | ⟨A', r, rfl⟩
    · have isNone : prev = none := by simp [prev, place, found]
      have after : place.after = B := by simp [place, found]
      rw [isNone] at search ⊢
      rw [readerFrom, after]
      exact search [] B tree (forall_mem_nil _)
    · rw [concat_eq_append] at tree found below
      exact prevCase A' r B (by simp [tree]) (below r (by simp)).le (by simp [prev, place, found])

/-! ## Writers -/

structure Valid (size : ZnodeSize) (off len : ℕ) (type : RlType) : Prop where
  positive : 0 < len
  fits : off + len < 2 ^ 64
  append : type = .append → size.zpSize + len < 2 ^ 64

theorem writerRange_fits (valid : Valid size off len type) : 0 < (writerRange size off len type).2 ∧
      (writerRange size off len type).1 + (writerRange size off len type).2 < 2 ^ 64 := by
  obtain ⟨positive, fits, append⟩ := valid
  have whole : 0 < uint64Max ∧ 0 + uint64Max < 2 ^ 64 := by decide
  simp only [writerRange]
  split_ifs with vnode isAppend grows
  · exact whole
  · exact ⟨positive, append isAppend⟩
  · exact whole
  · exact ⟨positive, fits⟩
  · exact ⟨positive, fits⟩

def writerGrant (size : ZnodeSize) (new : Rl) : Grant :=
  let (off, len) := writerRange size new.rOff new.rLen new.rType
  ⟨new.id, off, len, true⟩

theorem zfsRangeLockWriter_eq : zfsRangeLockWriter zp.alloc size new =
    let range := writerRange size new.rOff new.rLen new.rType
    let asked : Rl := { new with rOff := range.1, rLen := range.2 }
    let granted : Rl := { asked with rType := .writer }
    if zp.zRangeAvl.length = 0 then
      (avlAdd zp.zRangeAvl granted).map fun tree => .granted { zp.alloc with zRangeAvl := tree } granted
    else
      let place := avlFind zfsRangeCompare asked zp.zRangeAvl
      match place.node with
      | some rl => some (waitToWrite zp.alloc rl)
      | none =>
        match place.after.head?.filter fun rl => rl.rOff < asked.stop with
        | some rl => some (waitToWrite zp.alloc rl)
        | none =>
          match place.before.getLast?.filter fun rl => rl.stop > asked.rOff with
          | some rl => some (waitToWrite zp.alloc rl)
          | none => (avlInsert place granted).map fun tree => .granted { zp.alloc with zRangeAvl := tree } granted := rfl

theorem zfsRangeLockWriter_outcome (wf : zp.Wf)
    (valid : Valid size new.rOff new.rLen new.rType) (original : new.rProxy = false) (one : new.rCnt = 1)
    (newId : new.id = zp.fresh) : Outcome zp (writerGrant size new) (zfsRangeLockWriter zp.alloc size new) := by
  have fits := writerRange_fits valid
  have ordered := wf.ordered
  rw [zfsRangeLockWriter_eq]
  extract_lets range asked granted _ place
  have askedFits : asked.Fits := fits
  have wait : ∀ r ∈ zp.zRangeAvl, Outcome zp (writerGrant size new) (some (waitToWrite zp.alloc r)) :=
    fun r member => waits_outcome wf member _ _ fun r => ⟨rfl, rfl, rfl, rfl⟩
  have insert : ∀ A B, zp.zRangeAvl = A ++ B → (∀ a ∈ A, a.rOff + a.rLen ≤ asked.rOff) →
      (∀ b ∈ B, asked.rOff + asked.rLen ≤ b.rOff) → Outcome zp (writerGrant size new)
        (some (.granted { zp.alloc with zRangeAvl := A ++ granted :: B } granted)) :=
    fun A B tree before after => .granted rfl
      (wf.insert tree granted fits (.writer rfl original one) original newId before after)
  split_ifs with empty
  · have tree := length_eq_zero_iff.mp empty
    rw [tree]
    exact insert [] [] tree (forall_mem_nil _) (forall_mem_nil _)
  rcases ordered.find asked with ⟨A, r, B, tree, here, found⟩ | ⟨A, B, tree, below, above, found⟩
  · simp only [place, found]
    exact wait r (by simp [tree])
  simp only [place, found]
  rw [tree] at ordered
  cases next : B.head?.filter fun rl => rl.rOff < asked.stop with
  | some rl =>
    have member : rl ∈ B := mem_of_mem_head? (filter_eq_some_iff.mp next).1
    exact wait rl (by simp [tree, member])
  | none =>
    have after : ∀ b ∈ B, asked.rOff + asked.rLen ≤ b.rOff := by
      cases B with
      | nil => exact forall_mem_nil _
      | cons head rest =>
        simp only [List.head?_cons, filter_some, askedFits.stop_eq, ite_eq_right_iff, reduceCtorEq,
          imp_false, decide_eq_true_eq, not_lt] at next
        obtain ⟨_, _, later⟩ := ordered.around
        rw [forall_mem_cons]
        refine ⟨next, fun b member => ?_⟩
        have := later b member
        omega
    cases last : A.getLast?.filter fun rl => rl.stop > asked.rOff with
    | some rl =>
      have member : rl ∈ A := mem_of_getLast? (filter_eq_some_iff.mp last).1
      exact wait rl (by simp [tree, member])
    | none =>
      refine insert A B tree ?_ after
      rcases eq_nil_or_concat A with rfl | ⟨A', r, rfl⟩
      · exact forall_mem_nil _
      · rw [concat_eq_append, append_assoc, singleton_append] at ordered
        obtain ⟨before, fitsR, _⟩ := ordered.around
        simp only [concat_eq_append, getLast?_append, getLast?_singleton, some_or,
          filter_some, fitsR.stop_eq, ite_eq_right_iff, reduceCtorEq, imp_false, decide_eq_true_eq,
          not_lt] at last
        intro a member
        rw [concat_eq_append, mem_append, mem_singleton] at member
        rcases member with member | rfl
        · have := before a member
          omega
        · exact last

/-! ## Any lock -/

def askedGrant (zp : Znode) (size : ZnodeSize) (off len : ℕ) (type : RlType) : Grant :=
  let new : Rl := ⟨zp.fresh, off, len, 1, type, false, false, false⟩
  if type = .reader then new.grant else writerGrant size new

theorem zfsRangeLock_outcome (wf : zp.Wf) (valid : Valid size off len type) :
    Outcome zp (askedGrant zp size off len type) (zfsRangeLock zp size off len type) := by
  have fits : Rl.Fits ⟨zp.fresh, off, len, 1, type, false, false, false⟩ := ⟨valid.positive, valid.fits⟩
  simp only [askedGrant, zfsRangeLock]
  split_ifs with isReader empty
  · have tree : zp.zRangeAvl = [] := length_eq_zero_iff.mp empty
    rw [tree]
    exact .granted rfl (wf.insert tree _ fits (.alone isReader rfl rfl) rfl rfl (forall_mem_nil _)
      (forall_mem_nil _))
  · exact zfsRangeLockReader_outcome wf fits isReader rfl rfl rfl
  · exact zfsRangeLockWriter_outcome wf valid rfl rfl rfl

end MacZfs.Rlock
