import MacZfs.Zil.Claim

/-! # What later passes use

Whatever the claim and a later pass fail to read, the later pass uses only what has been claimed, unless it can read the
block at which the claim stopped.
-/

namespace MacZfs.Zil

open List

def Claimed (disk : Disk) (fails : Blkptr → Bool) (firstTxg : ℕ) (log : Blkptr) (dva : ℕ) : Prop :=
  ∃ bp, bp.dva = dva ∧ firstTxg ≤ bp.blkBirth ∧
    (Reached disk fails log bp ∨ ∃ bp' data lr, Reached disk fails log bp' ∧ zilReadLogBlock disk fails bp' = some data ∧
      lr ∈ data.records ∧ lr.lrcTxtype = txWrite ∧ lr.lrBlkptr = bp)

def Common (disk : Disk) (fails fails' : Blkptr → Bool) (log bp : Blkptr) : Prop :=
  Reached disk fails log bp ∧ Reached disk fails' log bp

/-- A write record, in a block that both passes come to and the later one reads, for a block that was not committed before
    the claim. -/
def Writes (disk : Disk) (fails fails' : Blkptr → Bool) (firstTxg : ℕ) (log bp : Blkptr) (lr : LogRecord) : Prop :=
  Common disk fails fails' log bp ∧ (∃ data, zilReadLogBlock disk fails' bp = some data ∧ lr ∈ data.records) ∧
    lr.lrcTxtype = txWrite ∧ firstTxg ≤ lr.lrBlkptr.blkBirth

/-- If the later pass reads the block at which the claim stopped, all write blocks in it were claimed for other records;
    and no address that is claimed belongs to two log blocks, or to a log block and a write block. -/
structure Bounded (disk : Disk) (fails fails' : Blkptr → Bool) (firstTxg : ℕ) (log : Blkptr) : Prop where
  stopped : ∀ bp lr, zilReadLogBlock disk fails bp = none → Writes disk fails fails' firstTxg log bp lr →
    Claimed disk fails firstTxg log lr.lrBlkptr.dva
  once : ∀ bp bp', Common disk fails fails' log bp → Common disk fails fails' log bp' → bp.dva = bp'.dva →
    Claimed disk fails firstTxg log bp.dva → bp = bp'
  apart : ∀ bp bp' lr, Common disk fails fails' log bp → Writes disk fails fails' firstTxg log bp' lr →
    lr.lrBlkptr.dva ≠ bp.dva

def Secured (zh : Header) (claimed : List ℕ) (bp : Blkptr) : Prop := bp.blkBirth < zh.zhClaimTxg ∨ bp.dva ∈ claimed

variable {fuel : ℕ} {log bp : Blkptr} {seen : List Seen}

theorem walk_last (fuel) : ∀ {blk seen}, walk disk fails 0 fuel blk = some seen →
    ∃ last, Reached disk fails blk last ∧ zilReadLogBlock disk fails last = none ∧
      ∀ maxSeq, seen.foldl (fun _ one => one.1.blkCksum.seq) maxSeq = last.blkCksum.seq := by
  induction fuel with
  | zero => exact fun none => by cases none
  | succ fuel ih =>
    intro blk seen walked
    rw [walk, if_neg (by simp)] at walked
    cases read : zilReadLogBlock disk fails blk with
    | none =>
      rw [read] at walked
      obtain rfl := Option.some.inj walked
      exact ⟨blk, .refl, read, fun _ => rfl⟩
    | some data =>
      rw [read] at walked
      obtain ⟨rest, onward, rfl⟩ := Option.map_eq_some_iff.mp walked
      obtain ⟨last, reached, unread, seq⟩ := ih onward
      exact ⟨last, .head ⟨data, read, rfl⟩ reached, unread, fun _ => seq _⟩

theorem block_mem_items : .block bp ∈ items seen ↔ ∃ data, (bp, data) ∈ seen := by
  simp only [items, mem_flatMap, mem_cons, Item.block.injEq, mem_map, reduceCtorEq, and_false, exists_false,
    or_false, Prod.exists]
  constructor
  · rintro ⟨bp', data, within, rfl⟩
    exact ⟨data, within⟩
  · rintro ⟨data, within⟩
    exact ⟨bp, data, within, rfl⟩

theorem record_mem_items : .record lr ∈ items seen ↔ ∃ bp data, (bp, some data) ∈ seen ∧ lr ∈ data.records := by
  simp only [items, mem_flatMap, mem_cons, reduceCtorEq, false_or, mem_map, Item.record.injEq, exists_eq_right,
    Prod.exists]
  constructor
  · rintro ⟨bp, data, within, record⟩
    cases data with
    | none => exact absurd record not_mem_nil
    | some data => exact ⟨bp, data, within, record⟩
  · rintro ⟨bp, data, within, record⟩
    exact ⟨bp, some data, within, record⟩

theorem claimed_iff (walked : walk disk fails 0 fuel log = some seen) (dva) :
    dva ∈ (items seen).foldl (act (zilClaimLogBlock firstTxg) (zilClaimLogRecord firstTxg)) [] ↔
      Claimed disk fails firstTxg log dva := by
  have mem := mem_walk fuel walked
  rw [mem_claimed]
  simp only [not_mem_nil, false_or, Named, block_mem_items, record_mem_items, mem, Claimed]
  constructor
  · rintro ⟨bp, ⟨data, reached, _⟩ | ⟨lr, ⟨bp', data, ⟨reached, _, read⟩, record⟩, write⟩, birth, same⟩
    · exact ⟨bp, same, birth, .inl reached⟩
    · exact ⟨bp, same, birth, .inr ⟨bp', data, lr, reached, read.symm, record, write⟩⟩
  · rintro ⟨bp, same, birth, reached | ⟨bp', data, lr, reached, read, record, write⟩⟩
    · exact ⟨bp, .inl ⟨_, reached, fun not => absurd rfl not, rfl⟩, birth, same⟩
    · exact ⟨bp, .inr ⟨lr, ⟨bp', data, ⟨reached, fun not => absurd rfl not, read.symm⟩, record⟩, write⟩, birth, same⟩

/-! ## A later pass -/

theorem logDvas_items (seen : List Seen) : logDvas (items seen) = seen.map fun one => one.1.dva := by
  induction seen with
  | nil => rfl
  | cons one seen ih =>
    have none : (one.records.map Item.record).filterMap Item.logDva = [] := by
      simp [filterMap_eq_nil_iff, Item.logDva]
    rw [map_cons, ← ih]
    simp only [logDvas, items, flatMap_cons, filterMap_append, filterMap_cons, none, Item.logDva,
      cons_append, nil_append]

/-- Different elements of a list have different values, as far as one value goes. -/
theorem count_map_le_one_iff {α : Type} {f : α → ℕ} {d : ℕ} (l : List α) (nodup : l.Nodup) :
    (l.map f).count d ≤ 1 ↔ ∀ x ∈ l, ∀ y ∈ l, f x = d → f y = d → x = y := by
  induction l with
  | nil => simp
  | cons a l ih =>
    obtain ⟨fresh, nodup⟩ := nodup_cons.mp nodup
    simp only [map_cons, count_cons, forall_mem_cons, beq_iff_eq]
    by_cases here : f a = d
    · have others : (l.map f).count d = 0 ↔ ∀ x ∈ l, f x ≠ d := by
        simp [count_eq_zero]
      rw [if_pos here, Nat.succ_le_succ_iff, Nat.le_zero, others]
      constructor
      · intro apart
        refine ⟨⟨fun _ _ => trivial, fun x within _ same => absurd same (apart x within)⟩, fun x within => ?_⟩
        exact ⟨fun same => absurd same (apart x within), fun y _ same => absurd same (apart x within)⟩
      · intro unique x within same
        exact fresh (unique.1.2 x within here same ▸ within)
    · rw [if_neg here, add_zero, ih nodup]
      simp [here]

section

variable {last : Blkptr} (reached : Reached disk fails log last) (unread : zilReadLogBlock disk fails last = none)
  (numbered : 0 < log.blkCksum.seq) (walked : walk disk fails' last.blkCksum.seq fuel log = some seen)

include reached unread numbered walked

theorem mem_later (bp) (data : Option LogBlock) :
    (bp, data) ∈ seen ↔ Common disk fails fails' log bp ∧ data = zilReadLogBlock disk fails' bp := by
  have positive : last.blkCksum.seq ≠ 0 := (lt_of_lt_of_le numbered reached.seq).ne'
  rw [mem_walk fuel walked, Common]
  constructor
  · rintro ⟨other, bounded, same⟩
    exact ⟨⟨(reached_iff reached unread other).mpr (bounded positive), other⟩, same⟩
  · rintro ⟨⟨both, other⟩, same⟩
    exact ⟨other, fun _ => (reached_iff reached unread other).mp both, same⟩

theorem later_block : .block bp ∈ items seen ↔ Common disk fails fails' log bp := by
  simp [block_mem_items, mem_later reached unread numbered walked]

theorem later_frees (dva) : (∃ item ∈ items seen, item.Frees firstTxg dva) ↔
    ∃ bp lr, Writes disk fails fails' firstTxg log bp lr ∧ lr.lrBlkptr.dva = dva := by
  have mem := mem_later reached unread numbered walked
  constructor
  · rintro ⟨_, within, lr, rfl, write, birth, same⟩
    obtain ⟨bp, data, found, record⟩ := record_mem_items.mp within
    obtain ⟨common, read⟩ := (mem bp (some data)).mp found
    exact ⟨bp, lr, ⟨common, ⟨data, read.symm, record⟩, write, birth⟩, same⟩
  · rintro ⟨bp, lr, ⟨common, ⟨data, read, record⟩, write, birth⟩, same⟩
    exact ⟨.record lr, record_mem_items.mpr ⟨bp, data, (mem bp (some data)).mpr ⟨common, read.symm⟩, record⟩, lr, rfl, write,
      birth, same⟩

theorem Bounded.secured (bounded : Bounded disk fails fails' firstTxg log) (named : Named (items seen) bp) :
    bp.blkBirth < firstTxg ∨ Claimed disk fails firstTxg log bp.dva := by
  by_cases birth : bp.blkBirth < firstTxg
  · exact .inl birth
  · right
    rcases named with block | ⟨lr, record, write, rfl⟩
    · exact ⟨bp, rfl, not_lt.mp birth, .inl ((later_block reached unread numbered walked).mp block).1⟩
    · obtain ⟨bp', data, found, within⟩ := record_mem_items.mp record
      obtain ⟨common, read⟩ := (mem_later reached unread numbered walked bp' (some data)).mp found
      cases claim : zilReadLogBlock disk fails bp' with
      | none => exact bounded.stopped bp' lr claim ⟨common, ⟨data, read.symm, within⟩, write, not_lt.mp birth⟩
      | some data' =>
        rw [← read_eq claim read.symm] at within
        exact ⟨lr.lrBlkptr, rfl, not_lt.mp birth, .inr ⟨bp', data', lr, common.1, claim, within, write, rfl⟩⟩

/-- The freeing pass over what both come to: nothing that was claimed is freed twice, if the claim bounds it. -/
theorem Bounded.count_le_one (bounded : Bounded disk fails fails' firstTxg log) {arg : Freeing}
    (freed : Freed firstTxg (items seen) ⟨[], []⟩ arg) {dva}
    (claimed : Claimed disk fails firstTxg log dva) : (arg.freed.map Blkptr.dva).count dva ≤ 1 := by
  have total := freed.count dva
  simp only [map_nil, count_nil, add_zero, zero_add, logDvas_items] at total
  rw [total]
  have mem := mem_later reached unread numbered walked
  by_cases inTree : dva ∈ arg.dvaTree
  · obtain ⟨bp', lr, writes, same⟩ := (later_frees reached unread numbered walked dva).mp
      (((freed.tree dva).mp inTree).resolve_left (by simp))
    have none : (seen.map fun one => one.1.dva).count dva = 0 := by
      rw [count_eq_zero, mem_map]
      rintro ⟨⟨bp, data⟩, within, here⟩
      exact bounded.apart bp bp' lr ((mem bp data).mp within).1 writes (same.trans here.symm)
    rw [none, zero_add]
    exact nodup_iff_count_le_one.mp (freed.nodup (by simp)) dva
  · rw [List.count_eq_zero.mpr inTree, add_zero, count_map_le_one_iff _ (walk_nodup walked)]
    rintro ⟨bp, data⟩ within ⟨bp', data'⟩ within' here here'
    obtain ⟨common, rfl⟩ := (mem bp data).mp within
    obtain ⟨common', rfl⟩ := (mem bp' data').mp within'
    rw [bounded.once bp bp' common common' (here.trans here'.symm) (here ▸ claimed)]

/-- Conversely, a freeing pass that frees only what is secured, and nothing that was claimed twice, is bounded. -/
theorem bounded_of_freed {arg : Freeing} (freed : Freed firstTxg (items seen) ⟨[], []⟩ arg)
    (secured : ∀ bp ∈ arg.freed, bp.blkBirth < firstTxg ∨ Claimed disk fails firstTxg log bp.dva)
    (once : ∀ dva, Claimed disk fails firstTxg log dva → (arg.freed.map Blkptr.dva).count dva ≤ 1) :
    Bounded disk fails fails' firstTxg log := by
  have mem := mem_later reached unread numbered walked
  have inTree (bp : Blkptr) (lr : LogRecord) (writes : Writes disk fails fails' firstTxg log bp lr) :
      lr.lrBlkptr.dva ∈ arg.dvaTree :=
    (freed.tree _).mpr (.inr ((later_frees reached unread numbered walked _).mpr ⟨bp, lr, writes, rfl⟩))
  have claimed (bp : Blkptr) (lr : LogRecord) (writes : Writes disk fails fails' firstTxg log bp lr) :
      Claimed disk fails firstTxg log lr.lrBlkptr.dva := by
    obtain ⟨bp', within, same, birth⟩ := (freed.new _ (inTree bp lr writes)).resolve_left (by simp)
    rw [← same]
    exact (secured bp' within).resolve_left (not_lt.mpr birth)
  have total (dva : ℕ) := freed.count dva
  simp only [map_nil, count_nil, add_zero, zero_add, logDvas_items] at total
  refine ⟨fun bp lr _ => claimed bp lr, fun bp bp' common common' same claim => ?_, fun bp bp' lr common writes same => ?_⟩
  · have few := once bp.dva claim
    rw [total] at few
    have unique := (count_map_le_one_iff _ (walk_nodup walked)).mp ((Nat.le_add_right _ _).trans few)
      (bp, _) ((mem bp _).mpr ⟨common, rfl⟩) (bp', _) ((mem bp' _).mpr ⟨common', rfl⟩) rfl same.symm
    exact congrArg Prod.fst unique
  · have few := once _ (claimed bp' lr writes)
    rw [total] at few
    have asRecord := List.count_pos_iff.mpr (inTree bp' lr writes)
    have asBlock : 0 < (seen.map fun one => one.1.dva).count lr.lrBlkptr.dva := by
      rw [count_pos_iff, same]
      exact mem_map_of_mem ((mem bp _).mpr ⟨common, rfl⟩)
    omega

end

/-- However the reads of the claim and of a later pass fail, both end, and what the later pass frees, replays or visits
    is secured, and nothing that was claimed freed twice, if and only if the claim bounds it. -/
theorem later_passes_secured_iff (disk : Disk) (zh : Header) (firstTxg mintxg : ℕ) (fails fails' : Blkptr → Bool)
    (works : LogRecord → Bool) (unclaimed : zh.zhClaimTxg = 0 ∧ zh.zhClaimSeq = 0) (log : zh.zhLog.isHole = false)
    (numbered : 0 < zh.zhLog.blkCksum.seq) (positive : 0 < firstTxg) :
    ∃ zh' claimed freed used visited,
      zilClaim disk fails firstTxg (disk.size + 1) zh = some (zh', claimed) ∧
      zilDestroy disk fails' (disk.size + 1) zh' = some freed ∧
      zilReplay disk fails' works (disk.size + 1) zh' = some used ∧
      traverseZil disk fails' mintxg (disk.size + 1) zh' = some visited ∧
      ((∀ bp ∈ freed ++ used ++ visited, Secured zh' claimed bp) ∧
          (∀ dva ∈ claimed, (freed.map Blkptr.dva).count dva ≤ 1) ↔
        Bounded disk fails fails' firstTxg zh.zhLog) := by
  obtain ⟨seen, walked⟩ := walk_exists disk fails 0 zh.zhLog
  obtain ⟨last, reached, unread, seq⟩ := walk_last _ walked
  obtain ⟨later, walked'⟩ := walk_exists disk fails' last.blkCksum.seq zh.zhLog
  let zh' : Header := { zh with zhClaimTxg := firstTxg, zhClaimSeq := last.blkCksum.seq }
  have parse {σ : Type} (blk : Blkptr → σ → σ) (lr : LogRecord → σ → σ) (arg : σ) :
      ∃ maxSeq, zilParse disk fails' zh' blk lr (disk.size + 1) arg =
        some (maxSeq, (items later).foldl (act blk lr) arg) := by
    refine ⟨later.foldl (fun _ one => one.1.blkCksum.seq) 0, ?_⟩
    rw [zilParse, if_neg (by simp [zh', log]), zilParseLoop_eq, walked', ← foldl_visit]
    rfl
  have claim : zilClaim disk fails firstTxg (disk.size + 1) zh =
      some (zh', (items seen).foldl (act (zilClaimLogBlock firstTxg) (zilClaimLogRecord firstTxg)) []) := by
    rw [zilClaim, if_pos (by simp [unclaimed.1, log]), zilParse, if_neg (by simp [log]), unclaimed.2, zilParseLoop_eq, walked,
      ← foldl_visit]
    simp [seq, zh']
  obtain ⟨_, frees⟩ := parse zilFreeLogBlock (zilFreeLogRecord firstTxg) ⟨[], []⟩
  obtain ⟨_, replays⟩ := parse zilIncrBlks (zilReplayLogRecord works firstTxg zh.zhReplaySeq) ⟨false, []⟩
  obtain ⟨_, visits⟩ := parse (traverseZilBlock mintxg) (traverseZilRecord mintxg firstTxg) []
  have freed := freed_foldl positive.ne' (items later) ⟨[], []⟩
  refine ⟨zh', _, _, _, _, claim, by rw [zilDestroy, frees]; rfl, by rw [zilReplay, replays]; rfl,
    by rw [traverseZil, if_neg positive.ne', visits]; rfl, ?_⟩
  simp only [Secured, claimed_iff walked]
  constructor
  · rintro ⟨secured, once⟩
    exact bounded_of_freed reached unread numbered walked' freed (fun bp within => secured bp (by simp [within])) once
  · intro bounded
    refine ⟨fun bp within => bounded.secured reached unread numbered walked' ?_, fun dva claimed =>
      bounded.count_le_one reached unread numbered walked' freed claimed⟩
    rcases mem_append.mp within with within | within
    · rcases mem_append.mp within with within | within
      · exact freed_named firstTxg _ bp within
      · exact used_named works firstTxg zh.zhReplaySeq _ bp within
    · exact visited_named mintxg firstTxg _ bp within

def oneBlock : LogBlock where
  zitNextBlk := ⟨1, 10, ⟨7, 8, 21, 2⟩⟩
  overflow := false
  records := [⟨txWrite, 10, 1, true, ⟨2, 10, ⟨0, 0, 0, 0⟩⟩⟩]

def oneBlockDisk : Disk where
  size := 1
  block dva := if dva = 0 then some oneBlock else none
  finite dva beyond := if_neg (by omega)

def oneBlockHeader : Header where
  zhClaimTxg := 0
  zhReplaySeq := 0
  zhLog := ⟨0, 10, ⟨7, 8, 21, 1⟩⟩
  zhClaimSeq := 0

theorem oneBlock_reached {bp} (reached : Reached oneBlockDisk (fun _ => false) oneBlockHeader.zhLog bp) :
    bp = oneBlockHeader.zhLog ∨ bp = oneBlock.zitNextBlk := by
  rcases reached.cases_head with rfl | ⟨bp', ⟨data, read, rfl⟩, rest⟩
  · exact .inl rfl
  · obtain rfl : oneBlock = data := Option.some.inj ((by decide : zilReadLogBlock oneBlockDisk (fun _ => false)
      oneBlockHeader.zhLog = some oneBlock).symm.trans read)
    exact .inr (Reached.eq_of_unread rest (by decide))

/-- If nothing fails, the log and the block of the record are claimed, and freed later. -/
theorem later_passes_secured_iff_oneBlock : ∃ zh' claimed freed used visited,
    zilClaim oneBlockDisk (fun _ => false) 10 2 oneBlockHeader = some (zh', claimed) ∧
    zilDestroy oneBlockDisk (fun _ => false) 2 zh' = some freed ∧
    (∀ bp ∈ freed ++ used ++ visited, Secured zh' claimed bp) ∧
    ∀ dva ∈ claimed, (freed.map Blkptr.dva).count dva ≤ 1 := by
  obtain ⟨zh', claimed, freed, used, visited, claim, destroy, _, _, iff⟩ := later_passes_secured_iff oneBlockDisk
    oneBlockHeader 10 0 (fun _ => false) (fun _ => false) (fun _ => true) ⟨rfl, rfl⟩ (by decide) (by decide) (by decide)
  refine ⟨zh', claimed, freed, used, visited, claim, destroy, iff.mpr ⟨fun bp lr unread writes => ?_,
    fun bp bp' common common' same _ => ?_, fun bp bp' lr common writes => ?_⟩⟩
  · obtain ⟨_, ⟨data, read, _⟩, _⟩ := writes
    rw [unread] at read
    cases read
  · rcases oneBlock_reached common.1 with rfl | rfl <;> rcases oneBlock_reached common'.1 with rfl | rfl <;>
      first
        | rfl
        | exact absurd same (by decide)
  · obtain ⟨common', ⟨data, read, record⟩, _⟩ := writes
    obtain rfl : lr = ⟨txWrite, 10, 1, true, ⟨2, 10, ⟨0, 0, 0, 0⟩⟩⟩ := by
      obtain ⟨block, _⟩ := read_block read
      have : data = oneBlock := by
        simp only [oneBlockDisk] at block
        split_ifs at block
        exact (Option.some.inj block).symm
      rw [this] at record
      exact mem_singleton.mp record
    rcases oneBlock_reached common.1 with rfl | rfl
    · decide
    · decide

/-- If the claim cannot read the block but a later pass can, that pass frees a block that was not claimed. -/
theorem destroy_frees_unclaimed :
    zilClaim oneBlockDisk (fun _ => true) 10 2 oneBlockHeader =
        some ({ oneBlockHeader with zhClaimTxg := 10, zhClaimSeq := 1 }, [0]) ∧
      zilDestroy oneBlockDisk (fun _ => false) 2 { oneBlockHeader with zhClaimTxg := 10, zhClaimSeq := 1 } =
        some [⟨2, 10, ⟨0, 0, 0, 0⟩⟩, ⟨0, 10, ⟨7, 8, 21, 1⟩⟩] ∧
      ¬Secured { oneBlockHeader with zhClaimTxg := 10, zhClaimSeq := 1 } [0] ⟨2, 10, ⟨0, 0, 0, 0⟩⟩ := by
  refine ⟨by decide, by decide, fun secured => ?_⟩
  rcases secured with early | claimed
  · exact absurd early (by decide)
  · exact absurd claimed (by decide)

end MacZfs.Zil
