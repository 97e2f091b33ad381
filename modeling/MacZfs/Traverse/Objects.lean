import MacZfs.Traverse.Advance

/-!
# Finding a dnode

`get_dnode` looks for the first allocated object, from a given one on, in the dnode blocks that were born after
a txg. It goes through the blocks of the meta-dnode as the traversal does, without holes.
-/

namespace MacZfs.Traverse

open Preorder Nat

/-- An allocated object in a dnode block that was born after `txg`. -/
def IsDnode (disk : Disk) (mdn : DnodePhys) (txg o : ℕ) (dn : DnodePhys) : Prop :=
  ∃ bp, mdn.Visited disk txg false 0 (o / dnodesPerBlock) bp ∧ dn = (disk bp).dnodes (o % dnodesPerBlock) ∧
    dn.dnType ≠ .none

/-- What `get_dnode` looks for. -/
structure Sought (disk : Disk) (mdn : DnodePhys) (txg : ℕ) (type : Option ObjectType) (object o : ℕ) (dn : DnodePhys) :
    Prop where
  ge : object ≤ o
  dnode : IsDnode disk mdn txg o dn
  type : (type.all fun type => dn.dnType == type) = true

/-- The outcome of `get_dnode`: the first one, or none. -/
def Picked (disk : Disk) (mdn : DnodePhys) (txg : ℕ) (type : Option ObjectType) (object : ℕ) (rc : Rc) (o : ℕ)
    (dn : DnodePhys) : Prop :=
  (rc = .ok ∧ Sought disk mdn txg type object o dn ∧ ∀ o' dn', Sought disk mdn txg type object o' dn' → o ≤ o') ∨
  (rc = .erange ∧ o = zbMaxobject ∧ ∀ o' dn', ¬Sought disk mdn txg type object o' dn')

variable {disk : Disk} {mdn : DnodePhys} {txg object l b : ℕ} {type : Option ObjectType} {th : Handle} {depth : Depth}

theorem Handle.Coherent.cached_data
    (coherent : th.Coherent disk) (holds : (th.thCache depth level).Holds zb bp dn) (whole : bp.isHole = false)
    (other : level ≠ 0 ∨ depth ≠ .dn) : (th.thCache depth level).bcData.getD default = disk bp := by
  cases data : (th.thCache depth level).bcData with
  | none => exact absurd data (coherent.buffer depth level other)
  | some old => rw [Option.getD_some, coherent.data depth level old (by rw [holds.blkptr, whole]) data, holds.blkptr]

theorem pickDnode_spec (visited : mdn.Visited disk txg false 0 b bp)
    (ahead : ∀ o dn, Sought disk mdn txg type object o dn → b ≤ o / dnodesPerBlock) :
    match pickDnode (disk bp).dnodes b object type with
    | some i => Picked disk mdn txg type object .ok (b * dnodesPerBlock + i) ((disk bp).dnodes i)
    | none => ∀ o dn, Sought disk mdn txg type object o dn → b < o / dnodesPerBlock := by
  have inside : ∀ o dn, Sought disk mdn txg type object o dn → o / dnodesPerBlock = b →
      o = b * dnodesPerBlock + o % dnodesPerBlock ∧ o % dnodesPerBlock ∈ List.range dnodesPerBlock ∧
        (decide (b * dnodesPerBlock + o % dnodesPerBlock ≥ object) && ((disk bp).dnodes (o % dnodesPerBlock)).dnType != .none &&
          (type.all fun type => ((disk bp).dnodes (o % dnodesPerBlock)).dnType == type)) = true := by
    intro o dn sought at_
    obtain ⟨bp', visited', rfl, some_type⟩ := sought.dnode
    rw [at_] at visited'
    obtain rfl := Option.some.inj (visited.at_.symm.trans visited'.at_)
    have split : o = b * dnodesPerBlock + o % dnodesPerBlock := by rw [← at_, mul_comm, div_add_mod]
    refine ⟨split, List.mem_range.mpr (mod_lt _ (by decide)), ?_⟩
    rw [← split]
    simp [sought.ge, some_type, sought.type]
  cases pick : pickDnode (disk bp).dnodes b object type with
  | none =>
    intro o dn sought
    refine lt_of_le_of_ne (ahead o dn sought) fun at_ => ?_
    obtain ⟨-, listed, fits⟩ := inside o dn sought at_.symm
    exact absurd fits (by simpa using List.find?_eq_none.mp pick _ listed)
  | some i =>
    obtain ⟨fits, listed, none⟩ := List.find?_range_eq_some.mp pick
    have small := List.mem_range.mp listed
    simp only [Bool.and_eq_true, decide_eq_true_eq, bne_iff_ne] at fits
    have div : (b * dnodesPerBlock + i) / dnodesPerBlock = b := by
      rw [mul_comm, mul_add_div (by decide), div_eq_of_lt small, add_zero]
    have mod : (b * dnodesPerBlock + i) % dnodesPerBlock = i := by
      rw [mul_comm, mul_add_mod, mod_eq_of_lt small]
    refine .inl ⟨rfl, ⟨fits.1.1, ⟨bp, by rwa [div], by rw [mod], fits.1.2⟩, fits.2⟩, fun o dn sought => ?_⟩
    rcases eq_or_lt_of_le (ahead o dn sought) with at_ | later
    · obtain ⟨split, listed', fits'⟩ := inside o dn sought at_.symm
      by_contra before
      have := none (o % dnodesPerBlock) (by omega)
      simp [fits'] at this
    · have whole := div_add_mod o dnodesPerBlock
      have more := mul_le_mul_left dnodesPerBlock (succ_le_of_lt later)
      simp only [dnodesPerBlock] at whole more small ⊢
      omega

section Loop

variable {objset : ℕ} (sane : mdn.Sane disk) (few : mdn.dnMaxblkid < zbMaxblkid) (other : depth ≠ .dn)

/-- The segment of `get_dnode`, at the block `b` of level `l`. -/
def dnodeSeg (txg objset l b : ℕ) : Zseg := ⟨txg, 2 ^ 64 - 1, ⟨objset, 0, l, b⟩, ⟨objset, 0, 0, zbMaxblkid⟩⟩

/-- What `get_dnode` finds in the block it is at. -/
def foundIn (th : Handle) (depth : Depth) (object : ℕ) (type : Option ObjectType) (rc : Rc) (zseg : Zseg) : Option ℕ :=
  if rc = .ok ∧ zseg.segStart.zbLevel = 0 then
    pickDnode ((th.thCache depth 0).bcData.getD default).dnodes zseg.segStart.zbBlkid object type
  else none

def Ahead (disk : Disk) (mdn : DnodePhys) (txg : ℕ) (type : Option ObjectType) (object leaf : ℕ) : Prop :=
  ∀ o dn, Sought disk mdn txg type object o dn → leaf ≤ o / dnodesPerBlock

theorem wanted_up (visited : mdn.Visited disk txg false 0 c bp)
    (low : m ≤ mdn.maxlevel) : ∃ bp, mdn.ptr disk m (c / 2 ^ (m * mdn.wshift)) = some bp ∧ wanted txg false bp = true := by
  cases m with
  | zero => exact ⟨bp, by simpa using visited.at_, visited.wanted⟩
  | succ m =>
    obtain ⟨bp, at_, young⟩ := visited.opened (m + 1) (succ_pos m) low
    exact ⟨bp, by simpa [up] using at_, by simp [wanted, young]⟩

/-- One move of `get_dnode`. -/
inductive Moves (disk : Disk) (mdn : DnodePhys) (txg objset : ℕ) (type : Option ObjectType) (object l b : ℕ) :
    Rc × Zseg → Prop
  | ends (zseg : Zseg) (none : ∀ o dn, ¬Sought disk mdn txg type object o dn) :
      Moves disk mdn txg objset type object l b (.erange, zseg)
  | goes (n d : ℕ) (low : n ≤ mdn.maxlevel) (later : rank mdn.wshift mdn.maxlevel l b < rank mdn.wshift mdn.maxlevel n d)
      (inside : start mdn.wshift n d ≤ mdn.dnMaxblkid)
      (ahead : Ahead disk mdn txg type object (start mdn.wshift n d)) :
      Moves disk mdn txg objset type object l b (.eagain, dnodeSeg txg objset n d)

include few in
theorem compare_dnodeEnd (inside : start mdn.wshift n d ≤ mdn.dnMaxblkid) :
    compareBookmark ⟨objset, 0, n, d⟩ ⟨objset, 0, 0, zbMaxblkid⟩ (some mdn) true = -1 := by
  have off : blkoff true mdn.wshift ⟨objset, 0, 0, zbMaxblkid⟩ = zbMaxblkid := by simp [blkoff, u64, zbMaxblkid]
  refine compare_blkoff rfl rfl (Int.natCast_nonneg n) le_rfl ?_
  rw [off, @blkoff_eq mdn.wshift n ⟨objset, 0, n, d⟩ rfl (lt_of_le_of_lt inside (lt_trans few (by decide)))]
  exact lt_of_le_of_lt inside few

include sane few in
theorem moves_across (low : m ≤ mdn.maxlevel) (at_ : mdn.ptr disk m c = some bp)
    (across : ¬(m > 0 ∧ rc = .ok)) (from_ : start mdn.wshift l b < start mdn.wshift m (c + 1)) (low' : l ≤ mdn.maxlevel)
    (ahead : Ahead disk mdn txg type object (start mdn.wshift m (c + 1))) :
    Moves disk mdn txg objset type object l b (advanceBlock (dnodeSeg txg objset m c) mdn rc true) := by
  obtain ⟨n, d, next, above, high, -, same, -⟩ := carry_spec (w := mdn.wshift) (l := m) (b := c + 1) (mdn.maxlevel - m)
  have top : n ≤ mdn.maxlevel := by omega
  simp only [advanceBlock, dnodeSeg, Int.toNat_natCast, nextBlock_across sane low at_ across]
  by_cases beyond : start mdn.wshift m (c + 1) > mdn.dnMaxblkid
  · simp only [if_pos beyond]
    refine .ends _ fun o dn sought => ?_
    have le := ahead o dn sought
    obtain ⟨bp', visited, -⟩ := sought.dnode
    have inside := visited.inside
    simp only [start, zero_mul, pow_zero, mul_one] at inside
    omega
  · simp only [if_neg beyond, next]
    have inside : start mdn.wshift n d ≤ mdn.dnMaxblkid := by omega
    rw [moved, compare_dnodeEnd few inside, if_neg (by decide)]
    exact .goes n d top ((rank_lt_iff low' top).mpr (.inl (by omega))) inside (same ▸ ahead)

include sane few in
theorem moves_down (low : l ≤ mdn.maxlevel) (at_ : mdn.ptr disk l b = some bp) (young : txg < bp.blkBirth)
    (pos : 0 < l) (ahead : Ahead disk mdn txg type object (start mdn.wshift l b)) :
    Moves disk mdn txg objset type object l b (advanceBlock (dnodeSeg txg objset l b) mdn .ok true) := by
  simp only [advanceBlock, dnodeSeg, Int.toNat_natCast, nextBlock_down sane low at_ pos]
  obtain ⟨below, rfl⟩ : ∃ below, l = below + 1 := ⟨l - 1, by omega⟩
  have same : start mdn.wshift below (b * 2 ^ mdn.wshift) = start mdn.wshift (below + 1) b := by
    rw [start_up (le_succ below)]
    simp [start]
  have inside : start mdn.wshift below (b * 2 ^ mdn.wshift) ≤ mdn.dnMaxblkid := by
    rw [same]
    exact sane.inside _ b bp low at_ (DnodePhys.not_hole young)
  rw [Nat.add_sub_cancel, moved, compare_dnodeEnd few inside, if_neg (by decide)]
  have step := rank_down (w := mdn.wshift) (b := b) low
  exact .goes below _ (by omega) (by omega) inside (same ▸ ahead)

include sane few other in
/-- One round of `get_dnode`. -/
theorem getDnode_round (type) (object : ℕ) (coherent : th.Coherent disk) (low : l ≤ mdn.maxlevel)
    (ahead : Ahead disk mdn txg type object (start mdn.wshift l b)) :
    ∃ rc zseg th', findBlock disk th (dnodeSeg txg objset l b) mdn depth = (rc, zseg, th') ∧ th'.Coherent disk ∧
      th.Same th' ∧ ((rc = .erange ∧ ∀ o dn, ¬Sought disk mdn txg type object o dn) ∨ rc ≠ .erange ∧
          ((∃ i, foundIn th' depth object type rc zseg = some i ∧ Picked disk mdn txg type object .ok
            (zseg.segStart.zbBlkid * dnodesPerBlock + i) (((th'.thCache depth 0).bcData.getD default).dnodes i)) ∨
          foundIn th' depth object type rc zseg = none ∧
            Moves disk mdn txg objset type object l b (advanceBlock zseg mdn rc true))) := by
  have without : (th.thAdvance.holes && depth == .dn) = false := by simp [other]
  rcases @findBlock_spec disk th depth mdn coherent sane l (dnodeSeg txg objset l b) rfl low with
    ⟨beyond, result⟩ | ⟨m, c, rc, th', result, found⟩
  · refine ⟨_, _, _, result, coherent, .refl th, .inl ⟨rfl, fun o dn sought => ?_⟩⟩
    have later := up_le_div (ahead o dn sought) low
    obtain ⟨bp, visited, -⟩ := sought.dnode
    have few := DnodePhys.up_lt_nblkptr (zero_le _) visited.at_
    rw [up, Nat.sub_zero] at few
    have beyond : mdn.dnNblkptr ≤ up mdn.wshift l b mdn.maxlevel := beyond
    omega
  · rw [without] at found
    refine ⟨_, _, _, result, found.coherent, found.same, .inr ?_⟩
    have at_ : FoundAt disk mdn txg false l b rc m c := found.at_
    by_cases ok : rc = .ok
    · subst ok
      obtain ⟨rfl, bp, here, want, level⟩ := at_.found rfl
      have young : txg < bp.blkBirth := by simpa [wanted] using want
      have whole := DnodePhys.not_hole young
      obtain rfl : m = l := level.resolve_right (by simp [whole])
      rw [up_self] at here found ⊢
      refine ⟨by simp, ?_⟩
      cases m with
      | zero =>
        have opened := at_.opened
        rw [up_self] at opened
        have visited : mdn.Visited disk txg false 0 b bp := ⟨low, opened, here, want, sane.inside 0 b bp low here whole⟩
        have data := found.coherent.cached_data (found.cached rfl bp here) whole (.inr other)
        have ahead : ∀ o dn, Sought disk mdn txg type object o dn → b ≤ o / dnodesPerBlock := by
          simpa [Ahead, start] using ahead
        have pick := pickDnode_spec visited ahead
        simp only [foundIn, dnodeSeg, cast_zero, and_self, if_true, data]
        cases picked : pickDnode (disk bp).dnodes b object type with
        | some i =>
          rw [picked] at pick
          exact .inl ⟨i, rfl, pick⟩
        | none =>
          rw [picked] at pick
          refine .inr ⟨rfl, moves_across sane few low here (by simp) (start_lt_of_up_le le_rfl up_self.le) low ?_⟩
          simpa [Ahead, start] using pick
      | succ below =>
        have high : ¬(Rc.ok = .ok ∧ (dnodeSeg txg objset (below + 1) b).segStart.zbLevel = 0) := by
          simp only [dnodeSeg, true_and]
          omega
        exact .inr ⟨if_neg high, moves_down sane few low here young (succ_pos below) ahead⟩
    · obtain ⟨rfl, le, aside, none⟩ := at_.passed ok
      obtain ⟨bp, last, -⟩ := none c le le_rfl
      refine ⟨by simp, .inr ⟨if_neg (by simp),
        moves_across sane few at_.low last (by simp) (start_lt_of_up_le at_.le le) low fun o dn sought => ?_⟩⟩
      have later := up_le_div (ahead o dn sought) at_.le
      obtain ⟨bp', visited, -⟩ := sought.dnode
      by_contra before
      have lt : o / dnodesPerBlock / 2 ^ (m * mdn.wshift) < c + 1 :=
        (Nat.div_lt_iff_lt_mul (Nat.two_pow_pos _)).mpr (not_le.mp before)
      obtain ⟨bp₁, at₁, want⟩ := wanted_up visited at_.low
      obtain ⟨bp₂, at₂, unwanted⟩ := none _ later (by omega)
      obtain rfl := Option.some.inj (at₁.symm.trans at₂)
      simp [want] at unwanted

include sane few other in
/-- The loop of `get_dnode`, with as many rounds as there are places to go. -/
theorem getDnodeFrom_spec (coherent : th.Coherent disk) (low : l ≤ mdn.maxlevel)
    (ahead : Ahead disk mdn txg type object (start mdn.wshift l b))
    (enough : (mdn.dnMaxblkid + 1) * (mdn.maxlevel + 1) - rank mdn.wshift mdn.maxlevel l b < rounds) :
    ∃ rc o dn th', getDnodeFrom disk th mdn object type depth rounds (dnodeSeg txg objset l b) = some (rc, o, dn, th') ∧
      th'.Coherent disk ∧ th.Same th' ∧ Picked disk mdn txg type object rc o dn := by
  induction rounds generalizing th l b with
  | zero => omega
  | succ rounds ih =>
    obtain ⟨rc, zseg, th', result, coherent', same, ⟨rfl, none⟩ | ⟨going, found⟩⟩ :=
      getDnode_round sane few other type object coherent low ahead
    · refine ⟨.erange, zbMaxobject, default, th', ?_, coherent', same, .inr ⟨rfl, rfl, none⟩⟩
      rw [getDnodeFrom, result]
      rfl
    · rw [getDnodeFrom, result]
      simp only [if_neg going]
      rcases found with ⟨i, pick, picked⟩ | ⟨pick, moves⟩
      · rw [foundIn] at pick
        rw [pick]
        exact ⟨_, _, _, th', rfl, coherent', same, picked⟩
      · rw [foundIn] at pick
        rw [pick]
        generalize advanceBlock zseg mdn rc true = next at moves
        cases moves with
        | ends zseg none => exact ⟨_, _, _, th', rfl, coherent', same, .inr ⟨rfl, rfl, none⟩⟩
        | goes n d low' later inside ahead' =>
          have bound : rank mdn.wshift mdn.maxlevel n d < (mdn.dnMaxblkid + 1) * (mdn.maxlevel + 1) := by
            have := mul_le_mul_right (mdn.maxlevel + 1) inside
            rw [rank, add_mul]
            omega
          obtain ⟨rc', o, dn, th'', rest, coherent'', same', picked⟩ := ih coherent' low' ahead' (by omega)
          exact ⟨rc', o, dn, th'', rest, coherent'', same.trans same', picked⟩

include sane few other in
/-- `get_dnode` finds the first object from a given one on. -/
theorem getDnode_spec (objset txg object : ℕ) (type) (coherent : th.Coherent disk)
    (enough : (mdn.dnMaxblkid + 1) * (mdn.maxlevel + 1) < rounds) :
    ∃ rc o dn th', getDnode disk th rounds objset mdn object txg type depth = some (rc, o, dn, th') ∧
      th'.Coherent disk ∧ th.Same th' ∧ Picked disk mdn txg type object rc o dn := by
  refine getDnodeFrom_spec sane few other coherent (zero_le _) (fun o dn sought => ?_) (by omega)
  simpa [start] using Nat.div_le_div_right sought.ge

end Loop

end MacZfs.Traverse
