import MacZfs.Zil.Basic

/-! # The blocks of a log

Every pass goes through the blocks that can be read one after another, and the first that cannot. Two passes that fail
at different blocks go through the same blocks up to the first at which one of them fails.
-/

namespace MacZfs.Zil

open Relation

abbrev Seen := Blkptr × Option LogBlock

/-- The blocks that `zil_parse` goes through. -/
def walk (disk : Disk) (fails : Blkptr → Bool) (claimSeq : ℕ) : ℕ → Blkptr → Option (List Seen)
  | 0, _ => none
  | fuel + 1, blk =>
    if claimSeq ≠ 0 ∧ claimSeq < blk.blkCksum.seq then some []
    else
      match zilReadLogBlock disk fails blk with
      | none => some [(blk, none)]
      | some data => (walk disk fails claimSeq fuel data.zitNextBlk).map fun rest => (blk, some data) :: rest

def Seen.records (seen : Seen) : List LogRecord :=
  match seen.2 with
  | none => []
  | some data => data.records

def visit {σ : Type} (parseBlkFunc : Blkptr → σ → σ) (parseLrFunc : LogRecord → σ → σ) (arg : σ) (seen : Seen) : σ :=
  seen.records.foldl (fun arg lr => parseLrFunc lr arg) (parseBlkFunc seen.1 arg)

def Next (disk : Disk) (fails : Blkptr → Bool) (bp bp' : Blkptr) : Prop :=
  ∃ data, zilReadLogBlock disk fails bp = some data ∧ data.zitNextBlk = bp'

def Reached (disk : Disk) (fails : Blkptr → Bool) : Blkptr → Blkptr → Prop := ReflTransGen (Next disk fails)

variable {fuel : ℕ} {blk : Blkptr}

theorem zilParseLoop_eq {σ : Type} (parseBlkFunc : Blkptr → σ → σ) (parseLrFunc : LogRecord → σ → σ) (fuel) :
    ∀ (blk : Blkptr) (maxSeq : ℕ) (arg : σ),
    zilParseLoop disk fails claimSeq parseBlkFunc parseLrFunc fuel blk maxSeq arg =
      (walk disk fails claimSeq fuel blk).map fun seen =>
        (seen.foldl (fun _ one => one.1.blkCksum.seq) maxSeq, seen.foldl (visit parseBlkFunc parseLrFunc) arg) := by
  induction fuel with
  | zero => exact fun blk maxSeq arg => rfl
  | succ fuel ih =>
    intro blk maxSeq arg
    rw [zilParseLoop, walk]
    split_ifs
    · rfl
    · cases zilReadLogBlock disk fails blk with
      | none => rfl
      | some data =>
        dsimp only
        rw [ih, Option.map_map]
        rfl

/-! ## Reading -/

theorem read_eq (read : zilReadLogBlock disk fails bp = some data)
    (read' : zilReadLogBlock disk fails' bp = some data') : data = data' := by
  unfold zilReadLogBlock at read read'
  cases block : disk.block bp.dva with
  | none => simp [block] at read
  | some data₀ =>
    simp only [block] at read read'
    split_ifs at read read'
    exact (Option.some.inj read).symm.trans (Option.some.inj read')

theorem read_block (read : zilReadLogBlock disk fails bp = some data) :
    disk.block bp.dva = some data ∧ data.zitNextBlk.blkCksum.seq = bp.blkCksum.seq + 1 := by
  unfold zilReadLogBlock at read
  cases block : disk.block bp.dva with
  | none => simp [block] at read
  | some data₀ =>
    simp only [block] at read
    split_ifs at read with _ same
    obtain rfl := Option.some.inj read
    refine ⟨rfl, ?_⟩
    rw [not_not.mp same]

theorem Next.seq {bp bp'} (next : Next disk fails bp bp') : bp'.blkCksum.seq = bp.blkCksum.seq + 1 := by
  obtain ⟨data, read, rfl⟩ := next
  exact (read_block read).2

theorem Next.unique (next : Next disk fails a b) (next' : Next disk fails' a c) : b = c := by
  obtain ⟨data, read, rfl⟩ := next
  obtain ⟨data', read', rfl⟩ := next'
  rw [read_eq read read']

theorem Reached.seq (reached : Reached disk fails blk bp) : blk.blkCksum.seq ≤ bp.blkCksum.seq := by
  induction reached with
  | refl => exact le_rfl
  | tail _ next ih => exact ih.trans (by rw [next.seq]; omega)

/-! ## The walk -/

/-- The blocks of a walk are those that are reached, up to the limit. -/
theorem mem_walk (fuel) : ∀ {blk seen}, walk disk fails claimSeq fuel blk = some seen →
    ∀ bp data, (bp, data) ∈ seen ↔ Reached disk fails blk bp ∧ (claimSeq ≠ 0 → bp.blkCksum.seq ≤ claimSeq) ∧
      data = zilReadLogBlock disk fails bp := by
  induction fuel with
  | zero => exact fun none => by cases none
  | succ fuel ih =>
    intro blk seen walked bp data
    rw [walk] at walked
    by_cases beyond : claimSeq ≠ 0 ∧ claimSeq < blk.blkCksum.seq
    · rw [if_pos beyond] at walked
      obtain rfl := Option.some.inj walked
      refine ⟨fun none => absurd none List.not_mem_nil, fun ⟨reached, limit, _⟩ => ?_⟩
      have := reached.seq
      omega
    · rw [if_neg beyond] at walked
      have within : claimSeq ≠ 0 → blk.blkCksum.seq ≤ claimSeq := fun bounded => not_lt.mp fun less => beyond ⟨bounded, less⟩
      cases read : zilReadLogBlock disk fails blk with
      | none =>
        rw [read] at walked
        obtain rfl := Option.some.inj walked
        simp only [List.mem_singleton, Prod.mk.injEq]
        constructor
        · rintro ⟨rfl, rfl⟩
          exact ⟨.refl, within, read.symm⟩
        · rintro ⟨reached, limit, rfl⟩
          rcases reached.cases_head with rfl | ⟨_, ⟨_, other, _⟩, _⟩
          · exact ⟨rfl, read⟩
          · rw [read] at other
            cases other
      | some contents =>
        rw [read] at walked
        obtain ⟨rest, onward, rfl⟩ := Option.map_eq_some_iff.mp walked
        have next : Next disk fails blk contents.zitNextBlk := ⟨contents, read, rfl⟩
        rw [List.mem_cons, ih onward bp data, Prod.mk.injEq]
        constructor
        · rintro (⟨rfl, rfl⟩ | ⟨reached, limit, same⟩)
          · exact ⟨.refl, within, read.symm⟩
          · exact ⟨.head next reached, limit, same⟩
        · rintro ⟨reached, limit, same⟩
          rcases reached.cases_head with rfl | ⟨bp', next', reached⟩
          · exact .inl ⟨rfl, same.trans read⟩
          · rw [next'.unique next] at reached
            exact .inr ⟨reached, limit, same⟩

/-- Each block of a walk has a larger number than those before it. -/
theorem walk_sorted (fuel) : ∀ {blk seen}, walk disk fails claimSeq fuel blk = some seen →
    seen.Pairwise fun one two => one.1.blkCksum.seq < two.1.blkCksum.seq := by
  induction fuel with
  | zero => exact fun none => by cases none
  | succ fuel ih =>
    intro blk seen walked
    rw [walk] at walked
    split_ifs at walked
    · obtain rfl := Option.some.inj walked
      exact .nil
    · cases read : zilReadLogBlock disk fails blk with
      | none =>
        rw [read] at walked
        obtain rfl := Option.some.inj walked
        exact List.pairwise_singleton _ _
      | some contents =>
        rw [read] at walked
        obtain ⟨rest, onward, rfl⟩ := Option.map_eq_some_iff.mp walked
        refine List.pairwise_cons.mpr ⟨fun one within => ?_, ih onward⟩
        have reached := ((mem_walk fuel onward one.1 one.2).mp within).1.seq
        have := (read_block read).2
        dsimp only
        omega

theorem walk_nodup (walked : walk disk fails claimSeq fuel blk = some seen) : seen.Nodup :=
  (walk_sorted fuel walked).imp fun less same => by simp [same] at less

def left (disk : Disk) (seq : ℕ) : Finset ℕ :=
  (Finset.range disk.size).filter fun dva => (disk.block dva).any fun data => decide (seq < data.zitNextBlk.blkCksum.seq)

theorem mem_left : dva ∈ left disk seq ↔ ∃ data, disk.block dva = some data ∧ seq < data.zitNextBlk.blkCksum.seq := by
  cases block : disk.block dva with
  | none => simp [left, block]
  | some data =>
    have inside : dva < disk.size := not_le.mp fun beyond => by simp [disk.finite dva beyond] at block
    simp [left, block, inside]

theorem left_next (read : zilReadLogBlock disk fails blk = some data) :
    left disk data.zitNextBlk.blkCksum.seq ⊂ left disk blk.blkCksum.seq := by
  obtain ⟨block, seq⟩ := read_block read
  rw [Finset.ssubset_iff_of_subset]
  · refine ⟨blk.dva, mem_left.mpr ⟨data, block, by omega⟩, fun again => ?_⟩
    obtain ⟨data', block', less⟩ := mem_left.mp again
    rw [block] at block'
    cases block'
    exact lt_irrefl _ less
  · intro dva more
    obtain ⟨data', block', less⟩ := mem_left.mp more
    exact mem_left.mpr ⟨data', block', by omega⟩

theorem walk_ends (fuel) : ∀ blk : Blkptr, (left disk blk.blkCksum.seq).card < fuel →
    ∃ seen, walk disk fails claimSeq fuel blk = some seen := by
  induction fuel with
  | zero => exact fun blk less => absurd less (Nat.not_lt_zero _)
  | succ fuel ih =>
    intro blk enough
    rw [walk]
    split_ifs
    · exact ⟨_, rfl⟩
    · cases read : zilReadLogBlock disk fails blk with
      | none => exact ⟨_, rfl⟩
      | some data =>
        have fewer := Finset.card_lt_card (left_next read)
        obtain ⟨rest, onward⟩ := ih data.zitNextBlk (by omega)
        exact ⟨(blk, some data) :: rest, by simp [onward]⟩

theorem walk_exists (disk) (fails) (claimSeq : ℕ) (blk : Blkptr) :
    ∃ seen, walk disk fails claimSeq (disk.size + 1) blk = some seen := by
  refine walk_ends _ blk (Nat.lt_succ_of_le ((Finset.card_filter_le _ _).trans ?_))
  rw [Finset.card_range]

/-! ## Two walks -/

theorem Reached.total (reached : Reached disk fails blk bp) (reached' : Reached disk fails blk bp') :
    Reached disk fails bp bp' ∨ Reached disk fails bp' bp :=
  reached.total_of_right_unique (fun _ _ _ => Next.unique) reached'

theorem Reached.eq_of_unread (reached : Reached disk fails bp bp')
    (unread : zilReadLogBlock disk fails bp = none) : bp' = bp := by
  rcases reached.cases_head with same | ⟨_, ⟨_, read, _⟩, _⟩
  · exact same.symm
  · rw [unread] at read
    cases read

/-- A pass that stops at `last` goes through all blocks up to it that another pass reaches. -/
theorem reached_iff (reached : Reached disk fails blk last)
    (unread : zilReadLogBlock disk fails last = none) (other : Reached disk fails' blk bp) :
    Reached disk fails blk bp ↔ bp.blkCksum.seq ≤ last.blkCksum.seq := by
  constructor
  · intro found
    rcases found.total reached with before | after
    · exact before.seq
    · rw [after.eq_of_unread unread]
  · induction other with
    | refl => exact fun _ => .refl
    | @tail bp bp' other next ih =>
      intro bounded
      rw [next.seq] at bounded
      have found := ih (by omega)
      rcases found.total reached with before | after
      · rcases before.cases_head with rfl | ⟨bp'', next', _⟩
        · omega
        · rw [next.unique next']
          exact found.tail next'
      · rw [after.eq_of_unread unread] at bounded
        omega

end MacZfs.Zil
