import MacZfs.Zil.Walk

/-! # What a claim secures

The claim stops at a block that it cannot read, and it has claimed that block, but not the blocks that the records in it
name. A later pass goes up to the same block, and if it can read it, it uses them.
-/

namespace MacZfs.Zil

open List

/-! ## Passes over blocks and records -/

inductive Item
  | block (bp : Blkptr)
  | record (lr : LogRecord)

def items (seen : List Seen) : List Item := seen.flatMap fun one => .block one.1 :: one.records.map .record

def act {σ : Type} (parseBlkFunc : Blkptr → σ → σ) (parseLrFunc : LogRecord → σ → σ) (arg : σ) : Item → σ
  | .block bp => parseBlkFunc bp arg
  | .record lr => parseLrFunc lr arg

def Named (log : List Item) (bp : Blkptr) : Prop :=
  .block bp ∈ log ∨ ∃ lr, .record lr ∈ log ∧ lr.lrcTxtype = txWrite ∧ lr.lrBlkptr = bp

theorem foldl_visit {σ : Type} (parseBlkFunc : Blkptr → σ → σ) (parseLrFunc : LogRecord → σ → σ) (seen : List Seen) :
    ∀ arg, seen.foldl (visit parseBlkFunc parseLrFunc) arg = (items seen).foldl (act parseBlkFunc parseLrFunc) arg := by
  induction seen with
  | nil => exact fun arg => rfl
  | cons one seen ih =>
    intro arg
    have here : visit parseBlkFunc parseLrFunc arg one =
        (Item.block one.1 :: one.records.map .record).foldl (act parseBlkFunc parseLrFunc) arg := by
      rw [visit, foldl_cons, foldl_map]
      rfl
    rw [foldl_cons, ih, here, ← foldl_append]
    rfl

@[simp]
theorem named_nil (bp) : ¬Named [] bp := by
  simp [Named]

@[simp]
theorem named_block : Named (.block bp :: log) bp' ↔ bp = bp' ∨ Named log bp' := by
  simp [Named, or_assoc, eq_comm]

@[simp]
theorem named_record : Named (.record lr :: log) bp ↔ (lr.lrcTxtype = txWrite ∧ lr.lrBlkptr = bp) ∨ Named log bp := by
  simp only [Named, mem_cons, reduceCtorEq, false_or, Item.record.injEq]
  constructor
  · rintro (block | ⟨lr', rfl | record, write⟩)
    · exact .inr (.inl block)
    · exact .inl write
    · exact .inr (.inr ⟨lr', record, write⟩)
  · rintro (write | block | ⟨lr', record, write⟩)
    · exact .inr ⟨lr, .inl rfl, write⟩
    · exact .inl block
    · exact .inr ⟨lr', .inr record, write⟩

theorem named_cons : Named (item :: log) bp ↔ Named [item] bp ∨ Named log bp := by
  cases item with
  | block bp' => simp
  | record lr => simp

theorem foldl_named {σ : Type} {step} (collected : σ → List Blkptr)
    (one : ∀ arg item, ∀ bp ∈ collected (step arg item), bp ∈ collected arg ∨ Named [item] bp) (log : List Item) :
    ∀ arg, ∀ bp ∈ collected (log.foldl step arg), bp ∈ collected arg ∨ Named log bp := by
  induction log with
  | nil => exact fun arg bp found => .inl found
  | cons item log ih =>
    intro arg bp found
    rcases ih (step arg item) bp found with old | later
    · exact (one arg item bp old).imp_right fun here => named_cons.mpr (.inl here)
    · exact .inr (named_cons.mpr (.inr later))

theorem mem_zilClaimLogBlock :
    dva ∈ zilClaimLogBlock firstTxg bp dvaTree ↔ dva ∈ dvaTree ∨ firstTxg ≤ bp.blkBirth ∧ bp.dva = dva := by
  unfold zilClaimLogBlock
  split_ifs with new
  · rw [mem_cons]
    constructor
    · rintro (rfl | old)
      · exact .inr ⟨new.1, rfl⟩
      · exact .inl old
    · rintro (old | ⟨_, rfl⟩)
      · exact .inr old
      · exact .inl rfl
  · refine ⟨.inl, ?_⟩
    rintro (old | ⟨birth, rfl⟩)
    · exact old
    · exact not_not.mp fun fresh => new ⟨birth, fresh⟩

theorem mem_claimed (log : List Item) : ∀ dvaTree : List ℕ,
    dva ∈ log.foldl (act (zilClaimLogBlock firstTxg) (zilClaimLogRecord firstTxg)) dvaTree ↔
      dva ∈ dvaTree ∨ ∃ bp, Named log bp ∧ firstTxg ≤ bp.blkBirth ∧ bp.dva = dva := by
  induction log with
  | nil => simp
  | cons item log ih =>
    intro dvaTree
    rw [foldl_cons, ih]
    cases item with
    | block bp =>
      simp only [act, mem_zilClaimLogBlock, named_block, or_and_right, exists_or, exists_eq_left']
      tauto
    | record lr =>
      simp only [act, zilClaimLogRecord, named_record, or_and_right, exists_or, and_assoc, exists_and_left, exists_eq_left']
      split_ifs with write
      · rw [mem_zilClaimLogBlock]
        tauto
      · tauto

/-! ## The pass that frees -/

def Item.logDva : Item → Option ℕ
  | .block bp => some bp.dva
  | .record _ => none

def logDvas (log : List Item) : List ℕ := log.filterMap Item.logDva

def Item.Frees (claimTxg : ℕ) (item : Item) (dva : ℕ) : Prop :=
  ∃ lr, item = .record lr ∧ lr.lrcTxtype = txWrite ∧ claimTxg ≤ lr.lrBlkptr.blkBirth ∧ lr.lrBlkptr.dva = dva

structure Freed (claimTxg : ℕ) (log : List Item) (before after : Freeing) : Prop where
  nodup : before.dvaTree.Nodup → after.dvaTree.Nodup
  tree : ∀ dva, dva ∈ after.dvaTree ↔ dva ∈ before.dvaTree ∨ ∃ item ∈ log, item.Frees claimTxg dva
  /-- What is in the tree was freed once for a record, and everything else once for each log block. -/
  count : ∀ dva, (after.freed.map Blkptr.dva).count dva + before.dvaTree.count dva =
    (before.freed.map Blkptr.dva).count dva + (logDvas log).count dva + after.dvaTree.count dva
  blocks : ∀ bp, .block bp ∈ log → bp ∈ after.freed
  kept : ∀ bp ∈ before.freed, bp ∈ after.freed
  new : ∀ dva ∈ after.dvaTree, dva ∈ before.dvaTree ∨ ∃ bp ∈ after.freed, bp.dva = dva ∧ claimTxg ≤ bp.blkBirth

theorem freed_block (claimTxg) (bp) (arg : Freeing) :
    Freed claimTxg [.block bp] arg (zilFreeLogBlock bp arg) where
  nodup := id
  tree dva := by simp [zilFreeLogBlock, Item.Frees]
  count dva := by
    simp only [zilFreeLogBlock, map_cons, count_cons, logDvas, Item.logDva, filterMap_cons, filterMap_nil, count_nil]
    omega
  blocks bp' within := by
    cases List.mem_singleton.mp within
    exact mem_cons_self
  kept bp' old := mem_cons_of_mem _ old
  new dva old := .inl old

theorem freed_record (claimed : claimTxg ≠ 0) (lr) (arg : Freeing) :
    Freed claimTxg [.record lr] arg (zilFreeLogRecord claimTxg lr arg) := by
  unfold zilFreeLogRecord
  split_ifs with frees
  · obtain ⟨_, write, birth, fresh⟩ := frees
    refine ⟨fun nodup => List.nodup_cons.mpr ⟨fresh, nodup⟩, fun dva => ?_, fun dva => ?_, by simp,
      fun bp old => mem_cons_of_mem _ old, fun dva found => ?_⟩
    · simp [Item.Frees, write, birth, or_comm, eq_comm]
    · simp only [map_cons, count_cons, logDvas, Item.logDva, filterMap_cons, filterMap_nil, count_nil]
      omega
    · rcases List.mem_cons.mp found with rfl | old
      · exact .inr ⟨lr.lrBlkptr, mem_cons_self, rfl, birth⟩
      · exact .inl old
  · refine ⟨id, fun dva => ⟨.inl, ?_⟩, fun dva => ?_, by simp, fun _ => id, fun _ => .inl⟩
    · rintro (old | ⟨item, within, lr', rfl, write, birth, rfl⟩)
      · exact old
      · cases List.mem_singleton.mp within
        by_contra fresh
        exact frees ⟨claimed, write, birth, fresh⟩
    · have none : logDvas [Item.record lr] = [] := rfl
      simp [none]

theorem Freed.trans {claimTxg log log' a b c} (first : Freed claimTxg log a b)
    (second : Freed claimTxg log' b c) : Freed claimTxg (log ++ log') a c where
  nodup start := second.nodup (first.nodup start)
  tree dva := by
    rw [second.tree, first.tree, or_assoc]
    simp [or_and_right, exists_or]
  count dva := by
    have early := first.count dva
    have late := second.count dva
    have split : logDvas (log ++ log') = logDvas log ++ logDvas log' := filterMap_append
    rw [split, count_append]
    omega
  blocks bp within := by
    rcases List.mem_append.mp within with early | late
    · exact second.kept bp (first.blocks bp early)
    · exact second.blocks bp late
  kept bp old := second.kept bp (first.kept bp old)
  new dva found := by
    rcases second.new dva found with old | later
    · rcases first.new dva old with older | ⟨bp, within, same⟩
      · exact .inl older
      · exact .inr ⟨bp, second.kept bp within, same⟩
    · exact .inr later

theorem freed_foldl (claimed : claimTxg ≠ 0) (log : List Item) : ∀ arg : Freeing,
    Freed claimTxg log arg (log.foldl (act zilFreeLogBlock (zilFreeLogRecord claimTxg)) arg) := by
  induction log with
  | nil => exact fun arg => ⟨id, by simp, by simp [logDvas], by simp, fun _ => id, fun _ => .inl⟩
  | cons item log ih =>
    intro arg
    have one : Freed claimTxg [item] arg (act zilFreeLogBlock (zilFreeLogRecord claimTxg) arg item) := by
      cases item with
      | block bp => exact freed_block claimTxg bp arg
      | record lr => exact freed_record claimed lr arg
    exact one.trans (ih _)

/-! ## The three later passes -/

theorem freed_named (claimTxg) (log : List Item) :
    ∀ bp ∈ (log.foldl (act zilFreeLogBlock (zilFreeLogRecord claimTxg)) ⟨[], []⟩).freed, Named log bp := by
  intro bp found
  refine (foldl_named Freeing.freed (fun arg item bp found => ?_) log _ bp found).resolve_left (by simp)
  cases item with
  | block bp' => simpa [act, zilFreeLogBlock, eq_comm, or_comm] using found
  | record lr =>
    simp only [act, zilFreeLogRecord] at found
    split_ifs at found with frees
    · simpa [frees.2.1, eq_comm, or_comm] using found
    · exact .inl found

theorem used_named (works) (claimTxg replaySeq : ℕ) (log : List Item) :
    ∀ bp ∈ (log.foldl (act zilIncrBlks (zilReplayLogRecord works claimTxg replaySeq)) ⟨false, []⟩).used, Named log bp := by
  intro bp found
  refine (foldl_named Replaying.used (fun arg item bp found => ?_) log _ bp found).resolve_left (by simp)
  cases item with
  | block bp' => simpa [act, zilIncrBlks, eq_comm, or_comm] using found
  | record lr =>
    simp only [act, zilReplayLogRecord] at found
    split_ifs at found with _ _ _ reads
    · exact .inl found
    · exact .inl found
    · exact .inl found
    · simpa [reads.1, eq_comm, or_comm] using found
    · exact .inl found

theorem visited_named (mintxg claimTxg) (log : List Item) :
    ∀ bp ∈ log.foldl (act (traverseZilBlock mintxg) (traverseZilRecord mintxg claimTxg)) [], Named log bp := by
  intro bp found
  refine (foldl_named id (fun arg item bp found => ?_) log _ bp found).resolve_left (by simp)
  cases item with
  | block bp' =>
    simp only [act, traverseZilBlock, id] at found
    split_ifs at found
    · exact .inl found
    · simpa [eq_comm, or_comm] using found
  | record lr =>
    simp only [act, traverseZilRecord, id] at found
    split_ifs at found with write
    · exact .inl found
    · simpa [write, eq_comm, or_comm] using found
    · exact .inl found
    · exact .inl found

end MacZfs.Zil
