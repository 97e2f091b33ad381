import MacZfs.Traverse.Tree

/-!
# Finding a block

The cache only holds what is on disk, so `find_block` sees the tree below a dnode. It goes down as long as the
blocks above the bookmark are to be visited. It ends at the bookmark, at a hole above it, or at the last of some
block pointers side by side that are passed over.
-/

namespace MacZfs.Traverse

open Preorder Nat Handle

structure Handle.Same (th th' : Handle) : Prop where
  advance : th'.thAdvance = th.thAdvance
  callbacks : th'.thCallbacks = th.thCallbacks
  asked : th'.asked = th.asked
  finished : th'.finished = th.finished

theorem Handle.Same.refl (th : Handle) : th.Same th := ⟨rfl, rfl, rfl, rfl⟩

theorem Handle.Same.trans {th th' th'' : Handle} (first : th.Same th') (second : th'.Same th'') : th.Same th'' :=
  ⟨second.advance.trans first.advance, second.callbacks.trans first.callbacks, second.asked.trans first.asked,
    second.finished.trans first.finished⟩

structure Handle.Coherent (disk : Disk) (th : Handle) : Prop where
  data : ∀ d l old, (th.thCache d l).bcBlkptr.isHole = false → (th.thCache d l).bcData = some old →
    old = disk (th.thCache d l).bcBlkptr
  buffer : ∀ d l, l ≠ 0 ∨ d ≠ .dn → (th.thCache d l).bcData ≠ none

variable {disk} {th : Handle} {depth : Depth} {level : ℕ} {zb : Zbookmark} {bp : Blkptr} {dn : DnodePhys}

theorem traverseInit_coherent (advance) : (traverseInit advance).Coherent disk := by
  refine ⟨fun d l old young => ?_, fun d l other => ?_⟩
  · simp [traverseInit, Blkptr.isHole, default, instInhabitedBlkCache.default, instInhabitedBlkptr.default] at young
  · simp [traverseInit, other]

theorem traverseRead_blkptr (bc) : (traverseRead disk bc bp dn).bcBlkptr = bp := by
  by_cases same : bc.bcBlkptr = bp
  · rw [traverseRead, if_pos same, same]
  · rw [traverseRead, if_neg same]

theorem traverseRead_data {bc}
    (fresh : ∀ old, bc.bcBlkptr.isHole = false → bc.bcData = some old → old = disk bc.bcBlkptr)
    {old} (young : bp.isHole = false) (at_ : (traverseRead disk bc bp dn).bcData = some old) : old = disk bp := by
  by_cases same : bc.bcBlkptr = bp
  · rw [traverseRead, if_pos same] at at_
    rw [← same] at young ⊢
    exact fresh old young at_
  · rw [traverseRead, if_neg same] at at_
    obtain ⟨_, -, rfl⟩ := Option.map_eq_some_iff.mp at_
    simp [young]

theorem traverseRead_buffer (some_data : bc.bcData ≠ none) :
    (traverseRead disk bc bp dn).bcData ≠ none := by
  by_cases same : bc.bcBlkptr = bp
  · rwa [traverseRead, if_pos same]
  · rw [traverseRead, if_neg same]
    simpa using some_data

theorem Handle.Coherent.set (coherent : th.Coherent disk)
    (data : ∀ old, bc.bcBlkptr.isHole = false → bc.bcData = some old → old = disk bc.bcBlkptr)
    (buffer : level ≠ 0 ∨ depth ≠ .dn → bc.bcData ≠ none) :
    { th with thCache := fun d l => if d = depth ∧ l = level then bc else th.thCache d l }.Coherent disk := by
  refine ⟨fun d l old => ?_, fun d l => ?_⟩
  · by_cases here : d = depth ∧ l = level
    · simp only [here, and_self, if_true]
      exact data old
    · simp only [here, if_false]
      exact coherent.data d l old
  · by_cases here : d = depth ∧ l = level
    · simp only [here, and_self, if_true]
      exact buffer
    · simp only [here, if_false]
      exact coherent.buffer d l

variable (depth level zb bp dn)

theorem Handle.Coherent.read (coherent : th.Coherent disk) : (th.read disk depth level zb bp dn).Coherent disk := by
  refine coherent.set (fun old young at_ => ?_) fun other => ?_
  · rw [traverseRead_blkptr] at young ⊢
    exact @traverseRead_data disk bp dn { th.thCache depth level with bcBookmark := zb } (coherent.data depth level) old
      young at_
  · exact traverseRead_buffer (coherent.buffer depth level other)

theorem Handle.read_same : th.Same (th.read disk depth level zb bp dn) := ⟨rfl, rfl, rfl, rfl⟩

structure BlkCache.Holds (bc : BlkCache) (zb : Zbookmark) (bp : Blkptr) (dn : DnodePhys) : Prop where
  bookmark : bc.bcBookmark = zb
  blkptr : bc.bcBlkptr = bp
  dnode : bc.bcDnode = dn

theorem Handle.read_holds : ((th.read disk depth level zb bp dn).thCache depth level).Holds zb bp dn := by
  have entry : (th.read disk depth level zb bp dn).thCache depth level =
      traverseRead disk { th.thCache depth level with bcBookmark := zb } bp dn := by simp [read]
  rw [entry]
  refine ⟨?_, traverseRead_blkptr _, ?_⟩ <;> rw [traverseRead] <;> split <;> rfl

theorem Handle.Coherent.read_data (coherent : th.Coherent disk) (young : bp.isHole = false)
    (other : level ≠ 0 ∨ depth ≠ .dn) :
    ((th.read disk depth level zb bp dn).thCache depth level).bcData.getD default = disk bp := by
  have after := coherent.read depth level zb bp dn
  have holds : ((th.read disk depth level zb bp dn).thCache depth level).Holds zb bp dn :=
    read_holds depth level zb bp dn
  cases data : ((th.read disk depth level zb bp dn).thCache depth level).bcData with
  | none => exact absurd data (after.buffer depth level other)
  | some old => rw [Option.getD_some, after.data depth level old (by rw [holds.blkptr, young]) data, holds.blkptr]

variable {depth level zb bp dn}

/-! ## The levels -/

theorem firstIndex_spec (stop : ℕ → Bool) (left i : ℕ) :
    i ≤ firstIndex stop left i ∧ firstIndex stop left i ≤ i + left ∧
      (∀ j, i ≤ j → j < firstIndex stop left i → stop j = false) ∧
      (firstIndex stop left i < i + left → stop (firstIndex stop left i) = true) := by
  induction left generalizing i with
  | zero =>
    simp only [firstIndex]
    exact ⟨le_rfl, le_rfl, fun j low high => by omega, fun lt => by omega⟩
  | succ left ih =>
    by_cases here : stop i
    · rw [firstIndex, if_pos here]
      exact ⟨le_rfl, by omega, fun j low high => by omega, fun _ => here⟩
    · rw [firstIndex, if_neg here]
      obtain ⟨low, high, none, last⟩ := ih (i + 1)
      refine ⟨by omega, by omega, fun j low' high' => ?_, fun lt => last (by omega)⟩
      rcases eq_or_lt_of_le low' with rfl | later
      · simpa using here
      · exact none j later high'

/-- The outcome of `find_block` for the block `b` of level `l`: a block of level `m` at or above it. -/
structure FoundAt (disk : Disk) (dn : DnodePhys) (mintxg : ℕ) (holes : Bool) (l b : ℕ) (rc : Rc) (m c : ℕ) : Prop where
  le : l ≤ m
  low : m ≤ dn.maxlevel
  opened : dn.Open disk mintxg m (up dn.wshift l b m)
  /-- The block was found, or a hole above it. -/
  found : rc = .ok → c = up dn.wshift l b m ∧ ∃ bp, dn.ptr disk m c = some bp ∧ wanted mintxg holes bp = true ∧
    (m = l ∨ bp.isHole = true)
  /-- Blocks side by side are passed over. -/
  passed : rc ≠ .ok → rc = .enotblk ∧ up dn.wshift l b m ≤ c ∧
    up dn.wshift l b m % 2 ^ dn.wshift + (c - up dn.wshift l b m) < 2 ^ dn.wshift ∧
    ∀ i, up dn.wshift l b m ≤ i → i ≤ c → ∃ bp, dn.ptr disk m i = some bp ∧ wanted mintxg holes bp = false

/-- What `find_block` returns. -/
structure Found (disk : Disk) (dn : DnodePhys) (mintxg : ℕ) (holes : Bool) (depth : Depth) (th : Handle) (zb : Zbookmark)
    (l : ℕ) (result : Rc × Zbookmark × Handle) (m c : ℕ) : Prop where
  at_ : FoundAt disk dn mintxg holes l zb.zbBlkid result.1 m c
  bookmark : result.2.1 = { zb with zbLevel := m, zbBlkid := c }
  coherent : result.2.2.Coherent disk
  same : th.Same result.2.2
  cached : result.1 = .ok → ∀ bp, dn.ptr disk m c = some bp → (result.2.2.thCache depth m).Holds result.2.1 bp dn

theorem shiftRight_eq_up {l b k} : b >>> (k * dn.wshift) = up dn.wshift l b (l + k) := by
  rw [shiftRight_eq_div_pow, up, Nat.add_sub_cancel_left]

section Levels

variable {l b mintxg k : ℕ} {holes : Bool} {bps : ℕ → Blkptr} {nbp : ℕ}

/-- One level of `find_block`. The `nbp` block pointers at hand are those of a block, or of the dnode. -/
theorem findStep_spec (depth : Depth) (holes : Bool) (coherent : th.Coherent disk) (at_level : zb.zbLevel = l) (low : l + k ≤ dn.maxlevel)
    (opened : dn.Open disk mintxg (l + k) (up dn.wshift l zb.zbBlkid (l + k)))
    (enough : up dn.wshift l zb.zbBlkid (l + k) % 2 ^ dn.wshift < nbp) (small : nbp ≤ 2 ^ dn.wshift)
    (siblings : ∀ i < nbp, dn.ptr disk (l + k) (up dn.wshift l zb.zbBlkid (l + k) -
      up dn.wshift l zb.zbBlkid (l + k) % 2 ^ dn.wshift + i) = some (bps i)) :
    (∃ rc zb' th' m c, findStep disk th zb dn depth mintxg holes k bps nbp = (some (rc, zb'), th') ∧
      Found disk dn mintxg holes depth th zb l (rc, zb', th') m c) ∨
    ∃ bp, dn.ptr disk (l + k) (up dn.wshift l zb.zbBlkid (l + k)) = some bp ∧ wanted mintxg holes bp = true ∧
      bp.isHole = false ∧ findStep disk th zb dn depth mintxg holes k bps nbp = (none, th.read disk depth (l + k)
        { zb with zbLevel := ((l + k : ℕ) : ℤ), zbBlkid := up dn.wshift l zb.zbBlkid (l + k) } bp dn) := by
  have level : zb.zbLevel.toNat = l := by rw [at_level, Int.toNat_natCast]
  simp only [findStep, level, shiftRight_eq_up (l := l), p2phase_shift]
  have phase := mod_le (up dn.wshift l zb.zbBlkid (l + k)) (2 ^ dn.wshift)
  set blkid := up dn.wshift l zb.zbBlkid (l + k) with at_blkid
  set first := blkid % 2 ^ dn.wshift
  obtain ⟨first_le, le_nbp, none, stop⟩ := firstIndex_spec (fun i => wanted mintxg holes (bps i)) (nbp - first) first
  set i := firstIndex (fun i => wanted mintxg holes (bps i)) (nbp - first) first
  by_cases past : i ≠ first
  · rw [if_pos past]
    refine .inl ⟨_, _, _, l + k, blkid + (i - 1 - first), rfl,
      ⟨Nat.le_add_right l k, low, opened, (fun ok => by cases ok), fun _ => ?_⟩, rfl, coherent, .refl th,
      (fun ok => by cases ok)⟩
    refine ⟨rfl, by rw [← at_blkid]; omega, by rw [← at_blkid]; omega, fun p ge le => ?_⟩
    have index := siblings (first + (p - blkid)) (by omega)
    have same : blkid - first + (first + (p - blkid)) = p := by omega
    rw [same] at index
    exact ⟨_, index, none _ (by omega) (by omega)⟩
  · rw [if_neg past]
    have here : i = first := not_not.mp past
    have index := siblings first enough
    rw [Nat.sub_add_cancel phase, ← here] at index
    have stop := stop (by omega)
    by_cases hole : (bps i).isHole = true
    · rw [if_pos hole]
      refine .inl ⟨_, _, _, l + k, blkid, rfl, ⟨Nat.le_add_right l k, low, opened, fun _ => ?_, fun bad => absurd rfl bad⟩,
        rfl, coherent.read _ _ _ _ _, read_same _ _ _ _ _, fun _ bp at_ => ?_⟩
      · exact ⟨at_blkid, bps i, index, stop, .inr hole⟩
      · obtain rfl := Option.some.inj (index.symm.trans at_)
        exact read_holds _ _ _ _ _
    · rw [if_neg hole]
      exact .inr ⟨bps i, index, stop, by simpa using hole, rfl⟩

theorem young_of_wanted (at_ : wanted mintxg holes bp = true) (whole : bp.isHole = false) : mintxg < bp.blkBirth := by
  simpa [wanted, whole] using at_

theorem open_down (opened : dn.Open disk mintxg (l + 1) (up dn.wshift l b (l + 1)))
    (at_ : dn.ptr disk (l + 1) (up dn.wshift l b (l + 1)) = some bp) (young : mintxg < bp.blkBirth) :
    dn.Open disk mintxg l b := by
  intro m lt top
  rcases eq_or_lt_of_le (succ_le_of_lt lt) with rfl | above
  · exact ⟨bp, at_, young⟩
  · have := opened m above top
    rwa [up_up (le_succ l) above.le] at this

theorem ptr_sibling (lt : l < dn.maxlevel) (at_ : dn.ptr disk (l + 1) (up dn.wshift l b (l + 1)) = some bp)
    (whole : bp.isHole = false) (small : i < 2 ^ dn.wshift) :
    dn.ptr disk l (b - b % 2 ^ dn.wshift + i) = some ((disk bp).blkptrs i) := by
  have whole_blocks : b - b % 2 ^ dn.wshift = 2 ^ dn.wshift * (b / 2 ^ dn.wshift) := by
    have := div_add_mod b (2 ^ dn.wshift)
    omega
  have div : (b - b % 2 ^ dn.wshift + i) / 2 ^ dn.wshift = b / 2 ^ dn.wshift := by
    rw [whole_blocks, mul_add_div (Nat.two_pow_pos _), div_eq_of_lt small, add_zero]
  have mod : (b - b % 2 ^ dn.wshift + i) % 2 ^ dn.wshift = i := by
    rw [whole_blocks, mul_add_mod, mod_eq_of_lt small]
  rw [up_succ] at at_
  rw [DnodePhys.ptr_below lt, div, mod, at_, Option.bind_some, if_neg (by simp [whole])]

theorem findLevel_spec {zb : Zbookmark} (coherent : th.Coherent disk) (at_level : zb.zbLevel = l) (k : ℕ)
    (low : l + k ≤ dn.maxlevel) (opened : dn.Open disk mintxg (l + k) (up dn.wshift l zb.zbBlkid (l + k)))
    (enough : up dn.wshift l zb.zbBlkid (l + k) % 2 ^ dn.wshift < nbp) (small : nbp ≤ 2 ^ dn.wshift)
    (siblings : ∀ i < nbp, dn.ptr disk (l + k) (up dn.wshift l zb.zbBlkid (l + k) -
      up dn.wshift l zb.zbBlkid (l + k) % 2 ^ dn.wshift + i) = some (bps i)) :
    ∃ m c, Found disk dn mintxg holes depth th zb l (findLevel disk zb dn depth mintxg holes k th bps nbp) m c := by
  induction k generalizing th bps nbp
  all_goals
    rw [findLevel]
    rcases findStep_spec depth holes coherent at_level low opened enough small siblings with
      ⟨rc, zb', th', m, c, step, found⟩ | ⟨bp, at_, wanted, whole, step⟩ <;> rw [step]
    · exact ⟨m, c, found⟩
  case zero.inr =>
    simp only [add_zero, up_self] at at_ opened ⊢
    have same : zb = { zb with zbLevel := (l : ℤ), zbBlkid := zb.zbBlkid } := by rw [← at_level]
    refine ⟨l, zb.zbBlkid, ⟨le_rfl, by omega, by rwa [up_self], fun _ => ?_, fun bad => absurd rfl bad⟩, same,
      coherent.read _ _ _ _ _, read_same _ _ _ _ _, fun _ bp' at_' => ?_⟩
    · exact ⟨up_self.symm, bp, at_, wanted, .inl rfl⟩
    · obtain rfl := Option.some.inj (at_.symm.trans at_')
      have holds := @read_holds disk th depth l { zb with zbLevel := (l : ℤ), zbBlkid := zb.zbBlkid } bp dn
      exact ⟨holds.bookmark.trans same.symm, holds.blkptr, holds.dnode⟩
  case succ.inr k ih =>
    have level : zb.zbLevel.toNat = l := by rw [at_level, Int.toNat_natCast]
    simp only [level]
    rw [coherent.read_data depth (l + (k + 1)) _ bp dn whole (.inl (by omega)), shiftLeft_eq, one_mul]
    have above : up dn.wshift (l + k) (up dn.wshift l zb.zbBlkid (l + k)) (l + k + 1) =
        up dn.wshift l zb.zbBlkid (l + (k + 1)) := up_up (le_add_right l k) (le_succ _)
    obtain ⟨m, c, found⟩ := ih (coherent.read depth (l + (k + 1)) _ bp dn) (by omega)
      (open_down (by rwa [above]) (by rwa [above]) (young_of_wanted wanted whole))
      (mod_lt _ (Nat.two_pow_pos _)) le_rfl
      fun i small => ptr_sibling (by omega) (by rwa [above]) whole small
    exact ⟨m, c, found.at_, found.bookmark, found.coherent, (read_same _ _ _ _ _).trans found.same, found.cached⟩

end Levels

/-- `find_block` below a dnode: the bookmark is beyond its block pointers, or what is above the bookmark is
    looked at. -/
theorem findBlock_spec (coherent : th.Coherent disk) (sane : dn.Sane disk) {l : ℕ} {zseg : Zseg}
    (at_level : zseg.segStart.zbLevel = l) (low : l ≤ dn.maxlevel) :
    (dn.dnNblkptr ≤ up dn.wshift l zseg.segStart.zbBlkid dn.maxlevel ∧
      findBlock disk th zseg dn depth = (.erange, zseg, th)) ∨
    ∃ (m c : ℕ) (rc : Rc) (th' : Handle), findBlock disk th zseg dn depth =
        (rc, { zseg with segStart := { zseg.segStart with zbLevel := (m : ℤ), zbBlkid := c } }, th') ∧
      Found disk dn zseg.segMintxg (th.thAdvance.holes && depth == .dn) depth th zseg.segStart l
        (rc, { zseg.segStart with zbLevel := (m : ℤ), zbBlkid := c }, th') m c := by
  have level : zseg.segStart.zbLevel.toNat = l := by rw [at_level, Int.toNat_natCast]
  have top : l + (dn.maxlevel - l) = dn.maxlevel := by omega
  have shifted : zseg.segStart.zbBlkid >>> ((dn.maxlevel - l) * dn.wshift) =
      up dn.wshift l zseg.segStart.zbBlkid dn.maxlevel := by rw [shiftRight_eq_up (l := l), top]
  simp only [findBlock, level, shifted]
  by_cases beyond : dn.dnNblkptr ≤ up dn.wshift l zseg.segStart.zbBlkid dn.maxlevel
  · exact .inl ⟨beyond, if_pos (.inr beyond)⟩
  · refine .inr ?_
    rw [if_neg (not_or.mpr ⟨by omega, beyond⟩)]
    have small : up dn.wshift l zseg.segStart.zbBlkid dn.maxlevel < 2 ^ dn.wshift := by
      have := sane.nblkptr
      omega
    obtain ⟨m, c, found⟩ := @findLevel_spec disk th depth dn l zseg.segMintxg (th.thAdvance.holes && depth == .dn)
      dn.dnBlkptr dn.dnNblkptr zseg.segStart coherent at_level (dn.maxlevel - l) top.le
      (fun m lt high => by omega)
      (by rw [top, mod_eq_of_lt small]; omega) sane.nblkptr
      (fun i lt => by rw [top, mod_eq_of_lt small, Nat.sub_self, zero_add, DnodePhys.ptr_top, if_pos lt])
    refine ⟨m, c, _, _, by rw [← found.bookmark], ?_⟩
    exact ⟨found.at_, rfl, found.coherent, found.same, fun ok bp at_ => found.bookmark ▸ found.cached ok bp at_⟩

end MacZfs.Traverse
