import MacZfs.Rlock.Basic

/-! # The ranges in the tree

What the operations on the tree do to the ranges it holds, byte by byte: how often a byte is counted, where ranges
begin and end, and which locks the structures stand for.
-/

namespace MacZfs.Rlock

open List Nat

structure Grant where
  id : ℕ
  off : ℕ
  len : ℕ
  write : Bool
  deriving DecidableEq, Repr

namespace Grant

def Covers (g : Grant) (b : ℕ) : Prop := g.off ≤ b ∧ b < g.off + g.len

instance (g : Grant) (b : ℕ) : Decidable (g.Covers b) := inferInstanceAs (Decidable (_ ∧ _))

end Grant

namespace Rl

def grant (r : Rl) : Grant := ⟨r.id, r.rOff, r.rLen, decide (r.rType = .writer)⟩

def Covers (r : Rl) (b : ℕ) : Prop := r.rOff ≤ b ∧ b < r.rOff + r.rLen

instance (r : Rl) (b : ℕ) : Decidable (r.Covers b) := inferInstanceAs (Decidable (_ ∧ _))

/-- What `r_cnt` adds to the count of a byte. -/
def countAt (r : Rl) (b : ℕ) : ℕ := if r.rType = .reader ∧ r.Covers b then r.rCnt else 0

def Fits (r : Rl) : Prop := 0 < r.rLen ∧ r.rOff + r.rLen < 2 ^ 64

inductive Kind (r : Rl) : Prop
  | writer (type : r.rType = .writer) (original : r.rProxy = false) (one : r.rCnt = 1)
  | alone (type : r.rType = .reader) (original : r.rProxy = false) (one : r.rCnt = 1)
  | proxy (type : r.rType = .reader) (proxy : r.rProxy = true) (used : 0 < r.rCnt)

theorem Fits.stop_eq {r : Rl} (fits : r.Fits) : r.stop = r.rOff + r.rLen := u64_of_lt fits.2

theorem Kind.count_pos {r : Rl} (kind : r.Kind) : 0 < r.rCnt := by
  cases kind <;> omega

end Rl

def cntAt (tree : List Rl) (b : ℕ) : ℕ := (tree.map fun r => r.countAt b).sum

def CutAt (tree : List Rl) (y : ℕ) : Prop := ∀ r ∈ tree, ¬(r.rOff < y ∧ y < r.rOff + r.rLen)

/-- Ranges of the tree, all of readers, add up to exactly the bytes from `a` to `z`. -/
structure Tiled (tree : List Rl) (a z : ℕ) : Prop where
  first : CutAt tree a
  last : CutAt tree z
  counted : ∀ b, a ≤ b → b < z → 0 < cntAt tree b

structure Ordered (tree : List Rl) : Prop where
  apart : tree.Pairwise fun r s => r.rOff + r.rLen ≤ s.rOff
  fits : ∀ r ∈ tree, r.Fits

namespace Znode

def handles (zp : Znode) : List Grant :=
  ((zp.zRangeAvl.filter fun r => !r.rProxy) ++ zp.shared).map Rl.grant

structure Wf (zp : Znode) : Prop where
  ordered : Ordered zp.zRangeAvl
  kinds : ∀ r ∈ zp.zRangeAvl, r.Kind
  readers : ∀ r ∈ zp.shared, r.rType = .reader ∧ r.rProxy = false ∧ r.rCnt = 0 ∧ r.Fits
  ids : ((zp.zRangeAvl ++ zp.shared).map Rl.id).Nodup
  fresh : ∀ r ∈ zp.zRangeAvl ++ zp.shared, r.id < zp.fresh

/-- From one state to the next the bytes from `c` to `d` were counted once more, and the locks are the same. -/
structure Grows (zp zp' : Znode) (c d : ℕ) : Prop where
  wf : zp'.Wf
  count : ∀ b, cntAt zp'.zRangeAvl b = cntAt zp.zRangeAvl b + if c ≤ b ∧ b < d then 1 else 0
  handles : zp'.handles.Perm zp.handles
  cuts : ∀ y, y ≤ c ∨ d ≤ y → CutAt zp.zRangeAvl y → CutAt zp'.zRangeAvl y
  tiled : ∀ a z, a < z → Tiled zp.zRangeAvl a z → Tiled zp'.zRangeAvl a z
  known : ∀ r ∈ zp'.zRangeAvl ++ zp'.shared, r.id ∈ (zp.zRangeAvl ++ zp.shared).map Rl.id ∨ zp.fresh ≤ r.id
  fresh : zp.fresh ≤ zp'.fresh

theorem Grows.refl {zp : Znode} (wf : zp.Wf) (c : ℕ) : zp.Grows zp c c where
  wf := wf
  count b := by rw [if_neg (by omega), add_zero]
  handles := Perm.refl _
  cuts _ _ cut := cut
  tiled _ _ _ tiled := tiled
  known r member := .inl (mem_map_of_mem member)
  fresh := le_rfl

theorem Grows.trans {zp zp₁ zp₂ : Znode} {c d e} (first : zp.Grows zp₁ c d) (second : zp₁.Grows zp₂ d e)
    (cd : c ≤ d) (de : d ≤ e) : zp.Grows zp₂ c e where
  wf := second.wf
  count b := by
    rw [second.count, first.count, add_assoc]
    congr 1
    split_ifs <;> omega
  handles := second.handles.trans first.handles
  cuts y outside cut := by
    apply second.cuts y (by omega)
    exact first.cuts y (by omega) cut
  tiled a z less tiled := second.tiled a z less (first.tiled a z less tiled)
  known r member := by
    rcases second.known r member with before | new
    · obtain ⟨s, inside, same⟩ := mem_map.mp before
      exact same ▸ first.known s inside
    · exact .inr (first.fresh.trans new)
  fresh := first.fresh.trans second.fresh

end Znode

section Lists

variable {A B : List Rl} {r k : Rl} {tree : List Rl} {b y : ℕ}

theorem cntAt_append : cntAt (A ++ B) b = cntAt A b + cntAt B b := by
  simp [cntAt]

theorem cntAt_cons : cntAt (r :: A) b = r.countAt b + cntAt A b := by
  simp [cntAt]

theorem cutAt_append : CutAt (A ++ B) y ↔ CutAt A y ∧ CutAt B y := by
  simp [CutAt, or_imp, forall_and]

theorem cutAt_cons : CutAt (r :: A) y ↔ ¬(r.rOff < y ∧ y < r.rOff + r.rLen) ∧ CutAt A y := by
  simp [CutAt]

theorem ordered_append : Ordered (A ++ B) ↔ Ordered A ∧ Ordered B ∧ ∀ a ∈ A, ∀ b ∈ B, a.rOff + a.rLen ≤ b.rOff := by
  constructor
  · rintro ⟨apart, fits⟩
    rw [pairwise_append] at apart
    exact ⟨⟨apart.1, fun r member => fits r (mem_append_left _ member)⟩,
      ⟨apart.2.1, fun r member => fits r (mem_append_right _ member)⟩, apart.2.2⟩
  · rintro ⟨⟨first, fitsA⟩, ⟨second, fitsB⟩, across⟩
    refine ⟨List.pairwise_append.mpr ⟨first, second, across⟩, fun r member => ?_⟩
    exact (mem_append.mp member).elim (fitsA r) (fitsB r)

theorem ordered_cons : Ordered (r :: A) ↔ r.Fits ∧ Ordered A ∧ ∀ a ∈ A, r.rOff + r.rLen ≤ a.rOff := by
  rw [← singleton_append, ordered_append]
  constructor
  · rintro ⟨single, rest, across⟩
    exact ⟨single.fits r (mem_singleton_self r), rest, fun a member => across r (mem_singleton_self r) a member⟩
  · rintro ⟨fits, rest, across⟩
    refine ⟨⟨pairwise_singleton _ _, ?_⟩, rest, ?_⟩
    · simpa using fits
    · simpa using across

theorem cntAt_eq_zero (outside : ∀ r ∈ A, ¬r.Covers b) : cntAt A b = 0 := by
  induction A with
  | nil => rfl
  | cons r A ih =>
    rw [forall_mem_cons] at outside
    rw [cntAt_cons, ih outside.2, Rl.countAt, if_neg fun here => outside.1 here.2]

theorem avlFind_here (below : ∀ a ∈ A, a.rOff < k.rOff) (same : k.rOff = r.rOff) :
    avlFind zfsRangeCompare k (A ++ r :: B) = ⟨A, some r, B⟩ := by
  induction A with
  | nil => simp [avlFind, zfsRangeCompare, same]
  | cons a A ih =>
    rw [forall_mem_cons] at below
    simp [avlFind, zfsRangeCompare, below.1, ih below.2]

theorem avlFind_gap (below : ∀ a ∈ A, a.rOff < k.rOff) (above : ∀ b ∈ B, k.rOff < b.rOff) :
    avlFind zfsRangeCompare k (A ++ B) = ⟨A, none, B⟩ := by
  induction A with
  | nil =>
    cases B with
    | nil => rfl
    | cons b B =>
      have less := above b mem_cons_self
      have notMore : ¬b.rOff < k.rOff := by omega
      simp [avlFind, zfsRangeCompare, less, notMore]
  | cons a A ih =>
    rw [forall_mem_cons] at below
    simp [avlFind, zfsRangeCompare, below.1, ih below.2]

theorem Ordered.below (ordered : Ordered (A ++ r :: B)) : ∀ a ∈ A, a.rOff < r.rOff := by
  intro a member
  have := (ordered_append.mp ordered).2.2 a member r mem_cons_self
  have := ((ordered_append.mp ordered).1.fits a member).1
  omega

/-- A search finds an entry at the offset, or the place between the entries before and after it. -/
theorem Ordered.find (ordered : Ordered tree) (k : Rl) :
    (∃ A r B, tree = A ++ r :: B ∧ r.rOff = k.rOff ∧ avlFind zfsRangeCompare k tree = ⟨A, some r, B⟩) ∨
      ∃ A B, tree = A ++ B ∧ (∀ a ∈ A, a.rOff < k.rOff) ∧ (∀ b ∈ B, k.rOff < b.rOff) ∧
        avlFind zfsRangeCompare k tree = ⟨A, none, B⟩ := by
  induction tree with
  | nil => exact .inr ⟨[], [], rfl, by simp, by simp, rfl⟩
  | cons r tree ih =>
    obtain ⟨fits, rest, across⟩ := ordered_cons.mp ordered
    rcases lt_trichotomy r.rOff k.rOff with less | same | more
    · rcases ih rest with ⟨A, s, B, rfl, here, found⟩ | ⟨A, B, rfl, below, above, found⟩
      · refine .inl ⟨r :: A, s, B, rfl, here, ?_⟩
        simp [avlFind, zfsRangeCompare, less, found]
      · refine .inr ⟨r :: A, B, rfl, forall_mem_cons.mpr ⟨less, below⟩, above, ?_⟩
        simp [avlFind, zfsRangeCompare, less, found]
    · exact .inl ⟨[], r, tree, rfl, same, by simp [avlFind, zfsRangeCompare, same]⟩
    · have above : ∀ b ∈ r :: tree, k.rOff < b.rOff := by
        intro b member
        rcases mem_cons.mp member with rfl | member
        · exact more
        · have := across b member
          omega
      exact .inr ⟨[], r :: tree, rfl, forall_mem_nil _, above, avlFind_gap (forall_mem_nil _) above⟩

variable (ordered : Ordered (A ++ r :: B)) (same : k.rOff = r.rOff)

include ordered same

theorem find_entry : avlFind zfsRangeCompare k (A ++ r :: B) = ⟨A, some r, B⟩ :=
  avlFind_here (fun a member => same ▸ ordered.below a member) same

theorem avlRemove_entry : avlRemove (A ++ r :: B) k = A ++ B := by
  simp [avlRemove, find_entry ordered same]

theorem avlNext_entry : avlNext (A ++ r :: B) k = B.head? := by
  simp [avlNext, find_entry ordered same]

theorem avlModify_entry (change : Rl → Rl) : avlModify (A ++ r :: B) k change = A ++ change r :: B := by
  simp [avlModify, find_entry ordered same]

theorem avlInsertHere_entry (s : Rl) : avlInsertHere (A ++ r :: B) s k = A ++ r :: s :: B := by
  simp [avlInsertHere, find_entry ordered same]

end Lists

theorem avlAdd_gap {A B} {r} (below : ∀ a ∈ A, a.rOff < r.rOff) (above : ∀ b ∈ B, r.rOff < b.rOff) :
    avlAdd (A ++ B) r = some (A ++ r :: B) := by
  simp [avlAdd, avlInsert, avlFind_gap below above]

/-! ## The steps of a reader -/

namespace Znode

variable {zp zp' : Znode} {A B M M' : List Rl}

structure Replaced (zp zp' : Znode) (A M M' B : List Rl) : Prop where
  tree : zp.zRangeAvl = A ++ (M ++ B)
  tree' : zp'.zRangeAvl = A ++ (M' ++ B)
  ordered : Ordered M'
  before : ∀ a ∈ A, ∀ m ∈ M', a.rOff + a.rLen ≤ m.rOff
  after : ∀ b ∈ B, ∀ m ∈ M', m.rOff + m.rLen ≤ b.rOff
  kinds : ∀ m ∈ M', m.Kind
  readers : ∀ r ∈ zp'.shared, r.rType = .reader ∧ r.rProxy = false ∧ r.rCnt = 0 ∧ r.Fits
  ids : ((M' ++ zp'.shared).map Rl.id).Nodup
  known : ∀ r ∈ M' ++ zp'.shared, r.id ∈ (M ++ zp.shared).map Rl.id ∨ zp.fresh ≤ r.id ∧ r.id < zp'.fresh
  fresh : zp.fresh ≤ zp'.fresh

theorem Replaced.wf (replaced : zp.Replaced zp' A M M' B) (wf : zp.Wf) : zp'.Wf := by
  obtain ⟨tree, tree', ordered', before, after, kinds', readers', ids', known, more⟩ := replaced
  obtain ⟨ordered, kinds, _, ids, fresh⟩ := wf
  rw [tree] at ordered kinds ids fresh
  obtain ⟨first, rest, across⟩ := ordered_append.mp ordered
  obtain ⟨_, second, _⟩ := ordered_append.mp rest
  have oldIds : ∀ r ∈ A ++ B, r.id < zp.fresh ∧ r.id ∉ (M ++ zp.shared).map Rl.id := by
    intro r member
    simp only [map_append, nodup_append', disjoint_append_left, disjoint_append_right] at ids
    rcases List.mem_append.mp member with member | member
    · refine ⟨fresh r (by simp [member]), ?_⟩
      simp only [map_append, mem_append, not_or]
      have inA := mem_map_of_mem (f := Rl.id) member
      exact ⟨ids.1.2.2.1 inA, ids.2.2.1 inA⟩
    · refine ⟨fresh r (by simp [member]), ?_⟩
      simp only [map_append, mem_append, not_or]
      have inB := mem_map_of_mem (f := Rl.id) member
      exact ⟨fun inM => ids.1.2.1.2.2 inM inB, ids.2.2.2.2 inB⟩
  have newIds : ∀ r ∈ A ++ B, ∀ s ∈ M' ++ zp'.shared, r.id ≠ s.id := by
    intro r old s new same
    rcases known s new with known | ⟨high, _⟩
    · exact (oldIds r old).2 (same ▸ known)
    · have := (oldIds r old).1
      omega
  refine ⟨?_, ?_, readers', ?_, ?_⟩
  · rw [tree', ordered_append, ordered_append]
    refine ⟨first, ⟨ordered', second, fun m member b later => after b later m member⟩, fun a member b later => ?_⟩
    rcases List.mem_append.mp later with later | later
    · exact before a member b later
    · exact across a member b (mem_append_right _ later)
  · intro r member
    rw [tree', mem_append, mem_append] at member
    rcases member with member | member | member
    · exact kinds r (by simp [member])
    · exact kinds' r member
    · exact kinds r (by simp [member])
  · rw [tree']
    simp only [map_append, nodup_append', disjoint_append_left, disjoint_append_right] at ids ids' ⊢
    have apart : ∀ X Y : List Rl, (∀ r ∈ X, r ∈ A ++ B) → (∀ s ∈ Y, s ∈ M' ++ zp'.shared) →
        Disjoint (X.map Rl.id) (Y.map Rl.id) := by
      intro X Y inX inY id inFirst inSecond
      obtain ⟨r, member, rfl⟩ := mem_map.mp inFirst
      obtain ⟨s, later, same⟩ := mem_map.mp inSecond
      exact newIds r (inX r member) s (inY s later) same.symm
    have left : ∀ Y : List Rl, (∀ s ∈ Y, s ∈ M' ++ zp'.shared) → Disjoint (A.map Rl.id) (Y.map Rl.id) :=
      fun Y inY => apart A Y (fun r member => mem_append_left _ member) inY
    have right : ∀ Y : List Rl, (∀ s ∈ Y, s ∈ M' ++ zp'.shared) → Disjoint (B.map Rl.id) (Y.map Rl.id) :=
      fun Y inY => apart B Y (fun r member => mem_append_right _ member) inY
    have inM : ∀ s ∈ M', s ∈ M' ++ zp'.shared := fun s member => mem_append_left _ member
    have inShared : ∀ s ∈ zp'.shared, s ∈ M' ++ zp'.shared := fun s member => mem_append_right _ member
    exact ⟨⟨ids.1.1, ⟨ids'.1, ids.1.2.1.2.1, disjoint_comm.mp (right M' inM)⟩, left M' inM, ids.1.2.2.2⟩,
      ids'.2.1, left _ inShared, ids'.2.2, right _ inShared⟩
  · intro r member
    rw [tree'] at member
    have parts : r ∈ A ++ B ∨ r ∈ M' ++ zp'.shared := by
      simp only [mem_append] at member ⊢
      tauto
    rcases parts with old | new
    · exact lt_of_lt_of_le (oldIds r old).1 more
    · rcases known r new with known | ⟨_, low⟩
      · obtain ⟨s, inside, same⟩ := mem_map.mp known
        rw [← same]
        refine lt_of_lt_of_le (fresh s ?_) more
        simp only [mem_append] at inside ⊢
        tauto
      · exact low

def grantsOf (entries shared : List Rl) : List Grant := ((entries.filter fun r => !r.rProxy) ++ shared).map Rl.grant

section

variable (replaced : zp.Replaced zp' A M M' B)

include replaced

theorem Replaced.handles (gone new : List Grant)
    (same : (gone ++ grantsOf M' zp'.shared).Perm (new ++ grantsOf M zp.shared)) :
    (gone ++ zp'.handles).Perm (new ++ zp.handles) := by
  rw [perm_iff_count] at same ⊢
  intro g
  have here := same g
  simp only [Znode.handles, grantsOf, replaced.tree, replaced.tree', filter_append, map_append,
    count_append] at here ⊢
  omega

theorem Replaced.known_of :
    ∀ r ∈ zp'.zRangeAvl ++ zp'.shared, r.id ∈ (zp.zRangeAvl ++ zp.shared).map Rl.id ∨ zp.fresh ≤ r.id := by
  intro r member
  rw [replaced.tree'] at member
  rw [replaced.tree]
  have parts : r ∈ A ++ B ∨ r ∈ M' ++ zp'.shared := by
    simp only [mem_append] at member ⊢
    tauto
  rcases parts with old | new
  · refine .inl (mem_map_of_mem ?_)
    simp only [mem_append] at old ⊢
    tauto
  · rcases replaced.known r new with known | ⟨high, _⟩
    · refine .inl ?_
      simp only [map_append, mem_append] at known ⊢
      tauto
    · exact .inr high

/-- Entries that count the same bytes once more, with no range across an offset where there was none. -/
theorem Replaced.grows (wf : zp.Wf) (count : ∀ b, cntAt M' b = cntAt M b + if c ≤ b ∧ b < d then 1 else 0)
    (same : (grantsOf M' zp'.shared).Perm (grantsOf M zp.shared)) (cuts : ∀ y, CutAt M y → CutAt M' y) :
    zp.Grows zp' c d := by
  have counts : ∀ b, cntAt zp'.zRangeAvl b = cntAt zp.zRangeAvl b + if c ≤ b ∧ b < d then 1 else 0 := by
    intro b
    rw [replaced.tree, replaced.tree']
    simp only [cntAt_append, count b]
    omega
  have allCuts : ∀ y, CutAt zp.zRangeAvl y → CutAt zp'.zRangeAvl y := by
    intro y cut
    rw [replaced.tree, cutAt_append, cutAt_append] at cut
    rw [replaced.tree', cutAt_append, cutAt_append]
    exact ⟨cut.1, cuts y cut.2.1, cut.2.2⟩
  refine ⟨replaced.wf wf, counts, replaced.handles [] [] same, fun y _ => allCuts y, fun a z _ tiled => ?_,
    replaced.known_of, replaced.fresh⟩
  refine ⟨allCuts a tiled.first, allCuts z tiled.last, fun b low high => ?_⟩
  rw [counts]
  exact Nat.add_pos_left (tiled.counted b low high) _

theorem Replaced.count (b) : cntAt zp'.zRangeAvl b + cntAt M b = cntAt zp.zRangeAvl b + cntAt M' b := by
  rw [replaced.tree, replaced.tree']
  simp only [cntAt_append]
  omega

end

/-- A new entry in a gap reaches across no end of ranges that were there. -/
theorem Replaced.fills_cut {r} (replaced : zp.Replaced zp' A [] [r] B) (less : a < z)
    (tiled : Tiled zp.zRangeAvl a z) : CutAt zp'.zRangeAvl a ∧ CutAt zp'.zRangeAvl z := by
  -- no byte of the gap was counted before
  have gap : ∀ b, r.rOff ≤ b → b < r.rOff + r.rLen → cntAt zp.zRangeAvl b = 0 := by
    intro b low high
    rw [replaced.tree, nil_append]
    apply cntAt_eq_zero
    rintro e member ⟨start, stop⟩
    rcases mem_append.mp member with member | member
    · have := replaced.before e member r (mem_singleton_self r)
      omega
    · have := replaced.after e member r (mem_singleton_self r)
      omega
  have cuts : ∀ y, ¬(r.rOff < y ∧ y < r.rOff + r.rLen) → CutAt zp.zRangeAvl y → CutAt zp'.zRangeAvl y := by
    intro y outside cut
    rw [replaced.tree, nil_append, cutAt_append] at cut
    rw [replaced.tree', singleton_append, cutAt_append, cutAt_cons]
    exact ⟨cut.1, outside, cut.2⟩
  refine ⟨cuts a ?_ tiled.first, cuts z ?_ tiled.last⟩
  · rintro ⟨low, high⟩
    have := tiled.counted a le_rfl less
    have := gap a (by omega) high
    omega
  · rintro ⟨low, high⟩
    have := tiled.counted (z - 1) (by omega) (by omega)
    have := gap (z - 1) (by omega) (by omega)
    omega

theorem Replaced.fills {r} (replaced : zp.Replaced zp' A [] [r] B) (wf : zp.Wf)
    (same : (grantsOf [r] zp'.shared).Perm (grantsOf [] zp.shared)) (reader : r.rType = .reader) (one : r.rCnt = 1) :
    zp.Grows zp' r.rOff (r.rOff + r.rLen) := by
  have counts : ∀ b, cntAt zp'.zRangeAvl b =
      cntAt zp.zRangeAvl b + if r.rOff ≤ b ∧ b < r.rOff + r.rLen then 1 else 0 := by
    intro b
    have := replaced.count b
    simpa [cntAt, Rl.countAt, reader, one, Rl.Covers] using this
  refine ⟨replaced.wf wf, counts, replaced.handles [] [] same, fun y outside cut => ?_, ?_,
    replaced.known_of, replaced.fresh⟩
  · rw [replaced.tree, nil_append, cutAt_append] at cut
    rw [replaced.tree', singleton_append, cutAt_append, cutAt_cons]
    exact ⟨cut.1, by omega, cut.2⟩
  · intro a z less tiled
    obtain ⟨first, last⟩ := replaced.fills_cut less tiled
    refine ⟨first, last, fun b low high => ?_⟩
    rw [counts]
    exact Nat.add_pos_left (tiled.counted b low high) _

end Znode

section Steps

variable {zp : Znode} {A B : List Rl} {r : Rl}

theorem Ordered.around (ordered : Ordered (A ++ r :: B)) :
    (∀ a ∈ A, a.rOff + a.rLen ≤ r.rOff) ∧ r.Fits ∧ ∀ b ∈ B, r.rOff + r.rLen ≤ b.rOff := by
  obtain ⟨_, rest, across⟩ := ordered_append.mp ordered
  obtain ⟨fits, _, after⟩ := ordered_cons.mp rest
  exact ⟨fun a member => across a member r mem_cons_self, fits, after⟩

theorem ordered_single (fits : r.Fits) : Ordered [r] := ⟨pairwise_singleton _ _, by simpa using fits⟩

section

variable (wf : zp.Wf) (tree : zp.zRangeAvl = A ++ r :: B)

include wf tree

theorem Znode.Wf.ids_of : r.id < zp.fresh ∧ r.id ∉ zp.shared.map Rl.id ∧ (zp.shared.map Rl.id).Nodup ∧
      ∀ s ∈ zp.shared, s.id < zp.fresh := by
  obtain ⟨_, _, _, ids, fresh⟩ := wf
  rw [tree] at ids fresh
  rw [map_append, nodup_append'] at ids
  refine ⟨fresh r (by simp), fun inside => ?_, ids.2.1, fun s member => fresh s (by simp [member])⟩
  exact ids.2.2 (mem_map_of_mem (by simp)) inside

theorem Znode.Wf.replaced (r' : Rl) (fits : r'.Fits)
    (kind : r'.Kind) (same : r'.id = r.id) (first : r'.rOff = r.rOff) (last : r'.rLen = r.rLen) :
    zp.Replaced { zp with zRangeAvl := A ++ r' :: B } A [r] [r'] B := by
  have ordered := wf.ordered
  rw [tree] at ordered
  obtain ⟨before, _, after⟩ := ordered.around
  obtain ⟨low, outside, nodup, bound⟩ := wf.ids_of tree
  refine ⟨tree, rfl, ordered_single fits, ?_, ?_, by simpa using kind, wf.readers, ?_, ?_, le_rfl⟩
  · simpa [first] using before
  · simpa [first, last] using after
  · simpa [same] using ⟨by simpa using outside, nodup⟩
  · intro s member
    refine .inl ?_
    simp only [singleton_append, mem_cons, map_cons] at member ⊢
    rcases member with rfl | member
    · exact .inl same
    · exact .inr (mem_map_of_mem member)

/-- A proxy in the place of an original, which stays with its owner. -/
theorem zfsRangeProxify_replaced (reader : r.rType = .reader) :
    ∃ zp' r', zfsRangeProxify zp r = some (zp', r') ∧ zp.Replaced zp' A [r] [r'] B ∧
      (Znode.grantsOf [r'] zp'.shared).Perm (Znode.grantsOf [r] zp.shared) ∧ r'.rOff = r.rOff ∧
      r'.rLen = r.rLen ∧ r'.rCnt = r.rCnt ∧ r'.rType = .reader ∧ r'.rProxy = true := by
  have ordered := wf.ordered
  rw [tree] at ordered
  obtain ⟨before, fits, after⟩ := ordered.around
  have kind := wf.kinds r (by simp [tree])
  cases proxy : r.rProxy with
  | true =>
    have replaced := wf.replaced tree r fits kind rfl rfl rfl
    rw [← tree] at replaced
    exact ⟨zp, r, by simp [zfsRangeProxify, proxy], replaced, Perm.refl _, rfl, rfl, rfl, reader, proxy⟩
  | false =>
    have one : r.rCnt = 1 := by
      cases kind with
      | writer type => simp [type] at reader
      | alone _ _ one => exact one
      | proxy _ here => simp [here] at proxy
    have above : ∀ b ∈ B, r.rOff < b.rOff := by
      intro b member
      have := after b member
      have := fits.1
      omega
    obtain ⟨low, outside, nodup, bound⟩ := wf.ids_of tree
    let proxyRl : Rl := ⟨zp.fresh, r.rOff, r.rLen, 1, .reader, true, false, false⟩
    let zp' : Znode := ⟨A ++ proxyRl :: B, { r with rCnt := 0 } :: zp.shared, zp.fresh + 1⟩
    have added : avlAdd (A ++ B) proxyRl = some (A ++ proxyRl :: B) := avlAdd_gap ordered.below above
    refine ⟨zp', proxyRl, ?_, ?_, ?_, rfl, rfl, one.symm, rfl, rfl⟩
    · simp only [zfsRangeProxify, proxy, tree, avlRemove_entry ordered rfl]
      simp [proxyRl, zp', added, proxy]
    · refine ⟨tree, rfl, ordered_single fits, ?_, ?_, ?_, ?_, ?_, ?_, le_succ _⟩
      · simpa using before
      · simpa using after
      · simpa using Rl.Kind.proxy rfl rfl one_pos
      · rw [forall_mem_cons]
        exact ⟨⟨reader, proxy, rfl, fits⟩, wf.readers⟩
      · have notFresh : zp.fresh ∉ zp.shared.map Rl.id := by
          intro inside
          obtain ⟨s, member, same⟩ := mem_map.mp inside
          have := bound s member
          omega
        simp only [singleton_append, map_cons, nodup_cons, mem_cons, not_or, zp', proxyRl]
        exact ⟨⟨by omega, notFresh⟩, outside, nodup⟩
      · intro s member
        simp only [singleton_append, mem_cons, zp'] at member
        rcases member with rfl | rfl | member
        · exact .inr ⟨le_rfl, lt_succ_self _⟩
        · simp
        · refine .inl ?_
          simp only [singleton_append, map_cons, mem_cons]
          exact .inr (mem_map_of_mem member)
    · simp [Znode.grantsOf, proxy, zp', Rl.grant]

theorem zfsRangeProxify_grows (reader : r.rType = .reader) :
    ∃ zp' r', zfsRangeProxify zp r = some (zp', r') ∧ zp'.zRangeAvl = A ++ r' :: B ∧ r'.rOff = r.rOff ∧
      r'.rLen = r.rLen ∧ r'.rCnt = r.rCnt ∧ r'.rType = .reader ∧ r'.rProxy = true ∧ ∀ c, zp.Grows zp' c c := by
  obtain ⟨zp', r', result, replaced, same, off, len, cnt, type, proxy⟩ := zfsRangeProxify_replaced wf tree reader
  refine ⟨zp', r', result, replaced.tree', off, len, cnt, type, proxy, fun c => replaced.grows wf ?_ same ?_⟩
  · intro b
    simp [cntAt, Rl.countAt, Rl.Covers, reader, type, off, len, cnt]
  · intro y
    simp [CutAt, off, len]

theorem zfsRangeSplit_grows (reader : r.rType = .reader) (low : r.rOff < off) (high : off < r.rOff + r.rLen) :
    ∃ zp' front rear, zfsRangeSplit zp r off = some (zp', front) ∧ zp'.zRangeAvl = A ++ front :: rear :: B ∧
      front.rOff = r.rOff ∧ front.rLen = off - r.rOff ∧ front.rType = .reader ∧ front.rProxy = true ∧
      rear.rOff = off ∧ rear.rLen = r.rOff + r.rLen - off ∧ rear.rType = .reader ∧ rear.rWriteWanted = false ∧
      ∀ c, zp.Grows zp' c c := by
  have ordered := wf.ordered
  rw [tree] at ordered
  obtain ⟨before, fits, after⟩ := ordered.around
  have kind := wf.kinds r (by simp [tree])
  have frontLen : u64Sub off r.rOff = off - r.rOff := u64Sub_of_le (by omega) (by have := fits.2; omega)
  have rearLen : u64Sub r.stop off = r.rOff + r.rLen - off := by
    rw [fits.stop_eq]
    exact u64Sub_of_le (by omega) (by have := fits.2; omega)
  have wf₀ : Znode.Wf { zp with fresh := zp.fresh + 1 } :=
    ⟨wf.ordered, wf.kinds, wf.readers, wf.ids, fun s member => (wf.fresh s member).trans (lt_succ_self _)⟩
  obtain ⟨zp₁, front₁, result, replaced, same, offEq, lenEq, cnt, type, proxy⟩ :=
    zfsRangeProxify_replaced wf₀ tree reader
  let rear : Rl := ⟨zp.fresh, off, r.rOff + r.rLen - off, r.rCnt, .reader, true, false, false⟩
  let front : Rl := { front₁ with rLen := off - r.rOff }
  have frontFits : front.Fits := ⟨show 0 < off - r.rOff by omega, show front₁.rOff + (off - r.rOff) < _ by
    have := fits.2
    omega⟩
  have rearFits : rear.Fits := ⟨show 0 < r.rOff + r.rLen - off by omega, show off + (r.rOff + r.rLen - off) < _ by
    have := fits.2
    omega⟩
  have ordered₁ : Ordered (A ++ front₁ :: B) := by
    have := (replaced.wf wf₀).ordered
    rwa [replaced.tree'] at this
  have replaced₂ : zp.Replaced { zp₁ with zRangeAvl := A ++ front :: rear :: B } A [r] [front, rear] B := by
    refine ⟨tree, rfl, ?_, ?_, ?_, ?_, replaced.readers, ?_, ?_, (le_succ _).trans replaced.fresh⟩
    · rw [ordered_cons]
      refine ⟨frontFits, ordered_single rearFits, ?_⟩
      simp [front, rear, offEq]
      omega
    · intro a member m inside
      have := before a member
      simp only [mem_cons, not_mem_nil, or_false] at inside
      rcases inside with rfl | rfl <;> simp [front, rear, offEq] <;> omega
    · intro b member m inside
      have := after b member
      simp only [mem_cons, not_mem_nil, or_false] at inside
      rcases inside with rfl | rfl <;> simp [front, rear, offEq] <;> omega
    · have used : 0 < r.rCnt := kind.count_pos
      intro m inside
      simp only [mem_cons, not_mem_nil, or_false] at inside
      rcases inside with rfl | rfl
      · exact .proxy type proxy (cnt.symm ▸ used)
      · exact .proxy rfl rfl used
    · have ids := replaced.ids
      have notFresh : zp.fresh ∉ ([front₁] ++ zp₁.shared).map Rl.id := by
        intro inside
        obtain ⟨s, member, isFresh⟩ := mem_map.mp inside
        rcases replaced.known s member with known | ⟨more, _⟩
        · obtain ⟨t, old, sameId⟩ := mem_map.mp known
          have : t.id < zp.fresh := by
            apply wf.fresh
            simp only [tree, mem_append, mem_cons, not_mem_nil, or_false] at old ⊢
            tauto
          omega
        · have : zp.fresh + 1 ≤ s.id := more
          omega
      simp only [cons_append, nil_append, map_cons, nodup_cons, mem_cons, not_or] at ids notFresh ⊢
      exact ⟨⟨fun eq => notFresh.1 eq.symm, ids.1⟩, notFresh.2, ids.2⟩
    · intro s member
      have origin : s = rear ∨ ∃ t ∈ [front₁] ++ zp₁.shared, s.id = t.id := by
        simp only [cons_append, nil_append, mem_cons] at member
        rcases member with rfl | rfl | member
        · exact .inr ⟨front₁, by simp, rfl⟩
        · exact .inl rfl
        · exact .inr ⟨s, by simp [member], rfl⟩
      rcases origin with rfl | ⟨t, inside, sameId⟩
      · exact .inr ⟨le_rfl, replaced.fresh⟩
      · rw [sameId]
        rcases replaced.known t inside with known | ⟨more, less⟩
        · exact .inl known
        · exact .inr ⟨(le_succ _).trans more, less⟩
  refine ⟨{ zp₁ with zRangeAvl := A ++ front :: rear :: B }, front, rear, ?_, rfl, offEq, rfl, type, proxy, rfl, rfl,
    rfl, rfl, fun c => replaced₂.grows wf ?_ ?_ ?_⟩
  · have ordered₂ : Ordered (A ++ front :: B) := by
      have := (replaced₂.wf wf).ordered
      simp only [ordered_append, ordered_cons, mem_cons, forall_eq_or_imp] at this ⊢
      exact ⟨this.1, ⟨this.2.1.1, this.2.1.2.1.2.1, this.2.1.2.2.2⟩, fun a member => ⟨(this.2.2 a member).1,
        (this.2.2 a member).2.2⟩⟩
    simp only [zfsRangeSplit, result, Option.bind_eq_bind, Option.bind_some, Znode.modify, replaced.tree',
      singleton_append, avlModify_entry ordered₁ rfl, frontLen, rearLen]
    rw [avlInsertHere_entry ordered₂ rfl]
    rfl
  · intro b
    have empty : ¬(c ≤ b ∧ b < c) := by omega
    simp only [cntAt_cons, Rl.countAt, Rl.Covers, reader, type, offEq, cnt, empty, front, rear, true_and, if_false]
    split_ifs <;> omega
  · simpa [Znode.grantsOf, front, proxy] using same
  · intro y
    simp only [cutAt_cons, front, rear, offEq]
    intro cut
    exact ⟨by omega, by omega, cut.2⟩

end

theorem zfsRangeNewProxy_grows (wf : zp.Wf) (tree : zp.zRangeAvl = A ++ B) (positive : 0 < len)
    (small : off + len < 2 ^ 64) (before : ∀ a ∈ A, a.rOff + a.rLen ≤ off) (after : ∀ b ∈ B, off + len ≤ b.rOff) :
    ∃ zp' r', zfsRangeNewProxy zp off len = some zp' ∧ zp'.zRangeAvl = A ++ r' :: B ∧ r'.rOff = off ∧
      r'.rLen = len ∧ r'.rType = .reader ∧ zp.Grows zp' off (off + len) := by
  let proxyRl : Rl := ⟨zp.fresh, off, len, 1, .reader, true, false, false⟩
  have ordered := wf.ordered
  rw [tree, ordered_append] at ordered
  have below : ∀ a ∈ A, a.rOff < proxyRl.rOff := by
    intro a member
    have := before a member
    have := (ordered.1.fits a member).1
    show a.rOff < off
    omega
  have above : ∀ b ∈ B, proxyRl.rOff < b.rOff := by
    intro b member
    have := after b member
    show off < b.rOff
    omega
  have added : avlAdd zp.zRangeAvl proxyRl = some (A ++ proxyRl :: B) := tree ▸ avlAdd_gap below above
  let zp' : Znode := { zp with zRangeAvl := A ++ proxyRl :: B, fresh := zp.fresh + 1 }
  have replaced : zp.Replaced zp' A [] [proxyRl] B := by
    refine ⟨tree, rfl, ordered_single ⟨positive, small⟩, ?_, ?_, ?_, wf.readers, ?_, ?_, le_succ _⟩
    · simpa using before
    · simpa using after
    · simpa using Rl.Kind.proxy rfl rfl one_pos
    · have ids := wf.ids
      rw [map_append, nodup_append'] at ids
      simp only [singleton_append, map_cons, nodup_cons, mem_map, not_exists, not_and, zp', proxyRl]
      refine ⟨fun s member isFresh => ?_, ids.2.1⟩
      have := wf.fresh s (mem_append_right _ member)
      omega
    · intro s member
      simp only [singleton_append, mem_cons, zp'] at member
      rcases member with rfl | member
      · exact .inr ⟨le_rfl, lt_succ_self _⟩
      · exact .inl (mem_map_of_mem member)
  refine ⟨zp', proxyRl, ?_, rfl, rfl, rfl, rfl, replaced.fills wf ?_ rfl rfl⟩
  · simp only [zfsRangeNewProxy]
    rw [show avlAdd zp.zRangeAvl _ = _ from added]
    rfl
  · simp [Znode.grantsOf, zp']

theorem bump_grows (wf : zp.Wf) (tree : zp.zRangeAvl = A ++ r :: B) (reader : r.rType = .reader)
    (proxy : r.rProxy = true) :
    (bump zp r).zRangeAvl = A ++ { r with rCnt := r.rCnt + 1 } :: B ∧
      zp.Grows (bump zp r) r.rOff (r.rOff + r.rLen) := by
  have ordered := wf.ordered
  rw [tree] at ordered
  have bumped : bump zp r = { zp with zRangeAvl := A ++ { r with rCnt := r.rCnt + 1 } :: B } := by
    rw [bump, Znode.modify, tree, avlModify_entry ordered rfl]
  have replaced := wf.replaced tree { r with rCnt := r.rCnt + 1 } ordered.around.2.1
    (.proxy reader proxy (succ_pos _)) rfl rfl rfl
  rw [bumped]
  refine ⟨rfl, replaced.grows wf ?_ ?_ ?_⟩
  · intro b
    simp only [cntAt_cons, Rl.countAt, Rl.Covers, reader, true_and]
    split_ifs <;> omega
  · simp [Znode.grantsOf, proxy]
  · intro y
    simp [CutAt]

end Steps

end MacZfs.Rlock
