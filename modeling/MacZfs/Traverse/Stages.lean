import MacZfs.Traverse.Objects

/-!
# The stages of a traversal

A traversal of a dataset in preorder is at the `objset_phys_t`, at the beginning of an object, or at a block of an
object. At each stage the callback has finished what comes before, and nothing else.
-/

namespace MacZfs.Traverse

open Preorder

def Allocated (disk : Disk) (mdn : DnodePhys) (o : ℕ) (dn : DnodePhys) : Prop :=
  ∃ bp, mdn.ptr disk 0 (o / dnodesPerBlock) = some bp ∧ bp.isHole = false ∧
    dn = (disk bp).dnodes (o % dnodesPerBlock) ∧ dn.dnType ≠ .none

structure Dataset (disk : Disk) where
  objset : ℕ
  dsp : DsPhys
  mdn : DnodePhys
  number : objset ≠ 0
  whole : dsp.dsBp.isHole = false
  metadnode : mdn = (disk dsp.dsBp).osMetaDnode
  sane : mdn.Sane disk
  few : (mdn.dnMaxblkid + 1) * dnodesPerBlock ≤ zbMaxobject
  dnodes : ∀ o dn, Allocated disk mdn o dn → dn.Sane disk
  births : ∀ o dn bp i, Allocated disk mdn o dn → mdn.ptr disk 0 (o / dnodesPerBlock) = some bp → i < dn.dnNblkptr →
    (dn.dnBlkptr i).blkBirth ≤ bp.blkBirth

inductive Stage
  | osphys
  | object (o : ℕ)
  | block (o : ℕ) (dn : DnodePhys) (l b : ℕ)

namespace Dataset

variable {disk : Disk} (ds : Dataset disk) (mintxg maxtxg : ℕ) (holes : Bool)

/-- The dnode of an object, in a dnode block that was born after `mintxg`; the meta-dnode is object 0. -/
def Dn (o : ℕ) (dn : DnodePhys) : Prop := if o = 0 then dn = ds.mdn else IsDnode disk ds.mdn mintxg o dn

inductive Visit : Finished → Prop
  | osphys (young : mintxg < ds.dsp.dsBp.blkBirth) (old : ds.dsp.dsBp.blkBirth < maxtxg) :
      Visit ⟨⟨ds.objset, 0, -1, 0⟩, ds.dsp.dsBp, ds.mdn⟩
  | block (o : ℕ) (dn : DnodePhys) (l b : ℕ) (bp : Blkptr) (dnode : ds.Dn mintxg o dn)
      (visited : dn.Visited disk mintxg holes l b bp) (old : bp.blkBirth < maxtxg) :
      Visit ⟨⟨ds.objset, o, l, b⟩, bp, dn⟩

def bookmark : Stage → Zbookmark
  | .osphys => ⟨ds.objset, 0, -1, 0⟩
  | .object o => ⟨ds.objset, o, zbMaxlevel, 0⟩
  | .block o _ l b => ⟨ds.objset, o, l, b⟩

/-- The segment of `traverse_add_objset` at a stage. -/
def seg (stage : Stage) : Zseg := ⟨mintxg, maxtxg, ds.bookmark stage, ⟨ds.objset, zbMaxobject, 0, zbMaxblkid⟩⟩

def room : ℕ := (ds.mdn.dnMaxblkid + 1) * dnodesPerBlock

def At : Stage → Prop
  | .osphys => True
  | .object o => o ≤ ds.room ∧ o < zbMaxobject
  | .block o dn l b => ds.Dn mintxg o dn ∧ Front disk dn mintxg l b

def left : Stage → ℕ ×ₗ ℕ
  | .osphys => toLex (2 * (ds.room + 2), 0)
  | .object o => toLex (2 * (ds.room + 1 - o) + 1, 0)
  | .block o dn l b => toLex (2 * (ds.room + 1 - o), (dn.dnMaxblkid + 1) * (dn.maxlevel + 1) - rank dn.wshift dn.maxlevel l b)

end Dataset

def Stage.Past : Stage → Finished → Prop
  | .osphys, _ => False
  | .object o, e => e.bookmark.zbLevel < 0 ∨ e.bookmark.zbObject < o
  | .block o dn l b, e => e.bookmark.zbLevel < 0 ∨ e.bookmark.zbObject < o ∨
      e.bookmark.zbObject = o ∧
        rank dn.wshift dn.maxlevel e.bookmark.zbLevel.toNat e.bookmark.zbBlkid < rank dn.wshift dn.maxlevel l b

def Ordered (finished : List Finished) : Prop :=
  finished.Pairwise fun later earlier => compareBookmark earlier.bookmark later.bookmark (some later.dnode) true < 0

/-- The callback has finished what is to be finished and `past`. -/
structure Dataset.Progress {disk : Disk} (ds : Dataset disk) (mintxg maxtxg : ℕ) (advance : Advance)
    (past : Finished → Prop) (th : Handle) : Prop where
  coherent : th.Coherent disk
  flags : th.thAdvance = advance
  exact_ : ∀ e, e ∈ th.finished ↔ ds.Visit mintxg maxtxg advance.holes e ∧ past e
  ordered : Ordered th.finished

section

variable {disk : Disk} {ds : Dataset disk} {mintxg maxtxg o l b : ℕ} {holes : Bool} {dn : DnodePhys} {e : Finished}
  {advance : Advance} {bp : Blkptr}

theorem IsDnode.unique (first : IsDnode disk mdn mintxg o dn) (second : IsDnode disk mdn mintxg o dn') :
    dn = dn' := by
  obtain ⟨bp, visited, rfl, -⟩ := first
  obtain ⟨bp', visited', rfl, -⟩ := second
  rw [Option.some.inj (visited.at_.symm.trans visited'.at_)]

theorem IsDnode.allocated (dnode : IsDnode disk mdn mintxg o dn) : Allocated disk mdn o dn := by
  obtain ⟨bp, visited, rest⟩ := dnode
  have young : mintxg < bp.blkBirth := by simpa [wanted] using visited.wanted
  exact ⟨bp, visited.at_, DnodePhys.not_hole young, rest⟩

namespace Dataset

theorem dn_zero : ds.Dn mintxg 0 ds.mdn := by rw [Dn, if_pos rfl]

theorem dn_object (object : o ≠ 0) : ds.Dn mintxg o dn ↔ IsDnode disk ds.mdn mintxg o dn := by
  rw [Dn, if_neg object]

theorem Dn.unique (first : ds.Dn mintxg o dn) (second : ds.Dn mintxg o dn') : dn = dn' := by
  unfold Dn at first second
  by_cases zero : o = 0
  · rw [if_pos zero] at first second
    rw [first, second]
  · rw [if_neg zero] at first second
    exact first.unique second

theorem Dn.sane (dnode : ds.Dn mintxg o dn) : dn.Sane disk := by
  unfold Dn at dnode
  split_ifs at dnode with zero
  · exact dnode ▸ ds.sane
  · exact ds.dnodes o dn dnode.allocated

theorem Dn.lt_room (dnode : ds.Dn mintxg o dn) : o < ds.room := by
  unfold Dn at dnode
  split_ifs at dnode with zero
  · rw [zero, room]
    exact Nat.mul_pos (Nat.succ_pos _) (by decide)
  · obtain ⟨bp, visited, -⟩ := dnode
    have inside := visited.inside
    simp only [start, Nat.zero_mul, pow_zero, mul_one] at inside
    exact (Nat.div_lt_iff_lt_mul (by decide)).mp (Nat.lt_succ_of_le inside)

theorem Visit.here (visit : ds.Visit mintxg maxtxg holes e) (dnode : ds.Dn mintxg o dn) (low : l ≤ dn.maxlevel)
    (block : ¬e.bookmark.zbLevel < 0) (object : e.bookmark.zbObject = o)
    (same : rank dn.wshift dn.maxlevel e.bookmark.zbLevel.toNat e.bookmark.zbBlkid = rank dn.wshift dn.maxlevel l b) :
    ∃ bp, e = ⟨⟨ds.objset, o, l, b⟩, bp, dn⟩ ∧ dn.Visited disk mintxg holes l b bp ∧ bp.blkBirth < maxtxg := by
  cases visit with
  | osphys => exact absurd (by norm_num) block
  | block o' dn' l' b' bp dnode' visited old =>
    obtain rfl : o' = o := object
    obtain rfl := dnode'.unique dnode
    obtain ⟨rfl, rfl⟩ := rank_inj visited.low low same
    exact ⟨bp, rfl, visited, old⟩

/-! ## Going on -/

section

variable (progress : ds.Progress mintxg maxtxg advance past th)

include progress

theorem Progress.congr
    (same : ∀ e, ds.Visit mintxg maxtxg advance.holes e → (past' e ↔ past e)) : ds.Progress mintxg maxtxg advance past' th where
  coherent := progress.coherent
  flags := progress.flags
  exact_ e := by
    rw [progress.exact_]
    exact and_congr_right fun visit => (same e visit).symm
  ordered := progress.ordered

theorem Progress.of_same (coherent : th'.Coherent disk)
    (same : th.Same th') : ds.Progress mintxg maxtxg advance past th' where
  coherent := coherent
  flags := same.advance.trans progress.flags
  exact_ e := by rw [same.finished, progress.exact_]
  ordered := by rw [same.finished]; exact progress.ordered

theorem Progress.called (calls : ℕ) : ds.Progress mintxg maxtxg advance past { th with thCallbacks := calls } :=
  ⟨⟨progress.coherent.data, progress.coherent.buffer⟩, progress.flags, progress.exact_, progress.ordered⟩

theorem Progress.asks (asked : ℕ) : ds.Progress mintxg maxtxg advance past { th with asked := asked } :=
  ⟨⟨progress.coherent.data, progress.coherent.buffer⟩, progress.flags, progress.exact_, progress.ordered⟩

theorem Progress.finish (visit : ds.Visit mintxg maxtxg advance.holes e)
    (last : ∀ e', ds.Visit mintxg maxtxg advance.holes e' → past e' →
      compareBookmark e'.bookmark e.bookmark (some e.dnode) true < 0) :
    ds.Progress mintxg maxtxg advance (fun e' => past e' ∨ e' = e) { th with finished := e :: th.finished } where
  coherent := ⟨progress.coherent.data, progress.coherent.buffer⟩
  flags := progress.flags
  exact_ e' := by
    rw [List.mem_cons, progress.exact_]
    constructor
    · rintro (rfl | ⟨visit', before⟩)
      · exact ⟨visit, .inr rfl⟩
      · exact ⟨visit', .inl before⟩
    · rintro ⟨visit', before | rfl⟩
      · exact .inr ⟨visit', before⟩
      · exact .inl rfl
  ordered := by
    refine List.pairwise_cons.mpr ⟨fun e' listed => ?_, progress.ordered⟩
    obtain ⟨visit', before⟩ := (progress.exact_ e').mp listed
    exact last e' visit' before

end

theorem compare_past (dnode : ds.Dn mintxg o dn) (visited : dn.Visited disk mintxg holes l b bp)
    (visit : ds.Visit mintxg maxtxg holes e) (before : (Stage.block o dn l b).Past e) :
    compareBookmark e.bookmark ⟨ds.objset, o, l, b⟩ (some dn) true < 0 := by
  cases visit with
  | osphys => exact compare_osphys rfl rfl (Int.natCast_nonneg l)
  | block o' dn' l' b' bp' dnode' visited' old' =>
    rcases before with osphys | object | ⟨rfl, less⟩
    · exact absurd osphys (not_lt.mpr (Int.natCast_nonneg l'))
    · have less := @compare_object ⟨ds.objset, o', l', b'⟩ ⟨ds.objset, o, l, b⟩ (some dn) rfl (Int.natCast_nonneg l')
        (Int.natCast_nonneg l) object
      rw [less]
      decide
    · obtain rfl := dnode'.unique dnode
      have fits : ∀ m c bp, dn'.Visited disk mintxg holes m c bp → start dn'.wshift m c < 2 ^ 64 := by
        intro m c bp visited
        refine lt_of_le_of_lt ?_ (dnode.sane.start_lt visited.low visited.at_)
        exact Nat.mul_le_mul_right _ (Nat.le_succ c)
      exact (@compare_block dn' ⟨ds.objset, o', l', b'⟩ ⟨ds.objset, o', l, b⟩ l' l dn'.maxlevel rfl rfl rfl rfl visited'.low
        visited.low (fits l' b' bp' visited') (fits l b bp visited)).mpr less

/-- The stage after a block, by where `advance_block` goes. -/
def nextStage (o : ℕ) (dn : DnodePhys) : Option (ℕ × ℕ) → Stage
  | none => .object (o + 1)
  | some (n, d) => .block o dn n d

/-- Between a block and the next stage there is at most the block itself. -/
theorem past_next (dnode : ds.Dn mintxg o dn) (leads : Leads disk dn mintxg holes l b next)
    (visit : ds.Visit mintxg maxtxg holes e) : (nextStage o dn next).Past e ↔ (Stage.block o dn l b).Past e ∨
      ¬e.bookmark.zbLevel < 0 ∧ e.bookmark.zbObject = o ∧
        rank dn.wshift dn.maxlevel e.bookmark.zbLevel.toNat e.bookmark.zbBlkid = rank dn.wshift dn.maxlevel l b := by
  cases visit with
  | osphys =>
    cases next with
    | none => simp [nextStage, Stage.Past]
    | some place => simp [nextStage, Stage.Past]
  | block o' dn' l' b' bp dnode' visited old =>
    by_cases same : o' = o
    · subst same
      obtain rfl := dnode'.unique dnode
      cases next with
      | none =>
        have le := leads l' b' bp visited
        simp only [nextStage, Stage.Past, Int.toNat_natCast, true_and]
        omega
      | some place =>
        have later := leads.2.1
        have next := leads.2.2 l' b' bp visited
        simp only [nextStage, Stage.Past, Int.toNat_natCast, true_and]
        omega
    · cases next with
      | none | some place =>
        simp only [nextStage, Stage.Past]
        omega

end Dataset

end

end MacZfs.Traverse
