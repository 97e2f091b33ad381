import MacZfs.Lib.Runs
import MacZfs.Rlock.Lock
import MacZfs.Rlock.Unlock

/-! # Runs of range locks

Any number of threads lock, unlock and reduce ranges of one file. A thread that has to wait tries again later, which
is another step.
-/

namespace MacZfs.Rlock

open List Rl

structure Held where
  zp : Znode
  granted : List Grant

inductive RangeStep : Held → Held → Prop
  | lock {s : Held} {size : ZnodeSize} {off len : ℕ} {type : RlType} {zp' : Znode} {rl : Rl}
      (valid : Valid size off len type) (result : zfsRangeLock s.zp size off len type = some (.granted zp' rl)) :
      RangeStep s ⟨zp', rl.grant :: s.granted⟩
  | wait {s : Held} {size : ZnodeSize} {off len : ℕ} {type : RlType} {zp' : Znode}
      (valid : Valid size off len type) (result : zfsRangeLock s.zp size off len type = some (.waits zp')) :
      RangeStep s ⟨zp', s.granted⟩
  | unlock {s : Held} {g : Grant} {zp' : Znode} (held : g ∈ s.granted)
      (result : zfsRangeUnlock s.zp g.id = some zp') : RangeStep s ⟨zp', s.granted.erase g⟩
  -- a writer that had to lock the whole file needs only a part of it any more
  | reduce {s : Held} {g : Grant} {off len : ℕ} {zp' : Znode} (held : g ∈ s.granted) (write : g.write = true)
      (whole : g.off = 0 ∧ g.len = uint64Max) (positive : 0 < len) (fits : off + len < 2 ^ 64)
      (result : zfsRangeReduce s.zp g.id off len = some zp') :
      RangeStep s ⟨zp', ⟨g.id, off, len, true⟩ :: s.granted.erase g⟩

def rangeLocks : Runs.System Held where
  init s := s.zp.zRangeAvl = [] ∧ s.zp.shared = [] ∧ s.granted = []
  step := RangeStep

structure Held.Inv (s : Held) : Prop where
  sound : s.zp.Sound
  held : s.granted.Perm s.zp.handles

variable {zp zp' : Znode} {g : Grant} {s s' : Held} {r : Rl}

/-! ## Reduce -/

theorem Znode.Sound.alone (sound : zp.Sound) (held : g ∈ zp.handles) (write : g.write = true)
    (whole : g.off = 0 ∧ g.len = uint64Max) :
    ∃ r, zp.zRangeAvl = [r] ∧ zp.shared = [] ∧ r.grant = g ∧ r.rType = .writer ∧ r.rProxy = false ∧ r.rCnt = 1 := by
  obtain ⟨r, member, rfl⟩ := mem_map.mp held
  have type : r.rType = .writer := by simpa [grant] using write
  have inTree : r ∈ zp.zRangeAvl ∧ r.rProxy = false := by
    rcases mem_append.mp member with inTree | inShared
    · simpa using mem_filter.mp inTree
    · simp [(sound.wf.readers r inShared).1] at type
  obtain ⟨A, B, tree⟩ := append_of_mem inTree.1
  have ordered := sound.wf.ordered
  rw [tree] at ordered
  obtain ⟨before, _, after⟩ := ordered.around
  have start : r.rOff = 0 := whole.1
  have length : r.rLen = 2 ^ 64 - 1 := whole.2
  have noneBefore : A = [] := by
    refine eq_nil_iff_forall_not_mem.mpr fun a inA => ?_
    have := before a inA
    have := (ordered.fits a (mem_append_left _ inA)).1
    omega
  have noneAfter : B = [] := by
    refine eq_nil_iff_forall_not_mem.mpr fun b inB => ?_
    have := after b inB
    obtain ⟨positive, fits⟩ := ordered.fits b (mem_append_right _ (mem_cons_of_mem _ inB))
    omega
  subst noneBefore noneAfter
  have noShared : zp.shared = [] := by
    refine eq_nil_iff_forall_not_mem.mpr fun t inShared => ?_
    obtain ⟨reader, _, _, fits, _⟩ := sound.wf.readers t inShared
    have tiled := sound.tiled (mem_map_of_mem (mem_append_right _ inShared)) (g := t.grant)
      (by simp [grant, reader])
    obtain ⟨e, inside, _, readerE⟩ := cntAt_pos (tiled.counted t.rOff le_rfl (Nat.lt_add_of_pos_right fits))
    rw [tree, nil_append, mem_singleton] at inside
    rw [inside, type] at readerE
    simp at readerE
  have one : r.rCnt = 1 := by
    cases sound.wf.kinds r inTree.1 with
    | writer _ _ one => exact one
    | alone reader => simp [type] at reader
    | proxy reader => simp [type] at reader
  exact ⟨r, tree, noShared, rfl, type, inTree.2, one⟩

theorem zfsRangeReduce_sound (sound : zp.Sound) (held : g ∈ zp.handles) (write : g.write = true)
    (whole : g.off = 0 ∧ g.len = uint64Max) (positive : 0 < len) (fits : off + len < 2 ^ 64)
    (result : zfsRangeReduce zp g.id off len = some zp') :
    zp'.Sound ∧ zp.handles = [g] ∧ zp'.handles = [⟨g.id, off, len, true⟩] := by
  obtain ⟨r, tree, shared, rfl, type, original, one⟩ := sound.alone held write whole
  have found : zp.at r.id = some r := by simp [Znode.at, tree]
  have reduced : zp' = { zp with zRangeAvl := [{ r with rOff := off, rLen := len }] } := by
    simp only [zfsRangeReduce, grant, found, Option.bind_eq_bind, Option.bind_some, Option.some.injEq, pure] at result
    have here := avlModify_entry (A := []) (B := []) (ordered_single (sound.wf.ordered.fits r (by simp [tree])))
      rfl fun rl => { rl with rOff := off, rLen := len }
    rw [← result, Znode.modify, tree]
    exact congrArg (fun tree => { zp with zRangeAvl := tree }) here
  subst reduced
  have handles : Znode.handles { zp with zRangeAvl := [{ r with rOff := off, rLen := len }] } =
      [⟨r.id, off, len, true⟩] := by
    simp [Znode.handles, grant, shared, original, type]
  refine ⟨⟨⟨ordered_single ⟨positive, fits⟩, ?_, ?_, ?_, ?_⟩, fun b => ?_, ?_⟩, ?_, handles⟩
  · intro m inside
    rw [mem_singleton.mp inside]
    exact .writer type original one
  · simp [shared]
  · simp [shared]
  · simpa [shared] using sound.wf.fresh r (by simp [tree])
  · rw [handles]
    simp [readersAt, cntAt, countAt, type]
  · simp [handles]
  · simp [Znode.handles, tree, shared, original]

/-! ## Runs -/

theorem rangeStep_inv (inv : s.Inv) (step : RangeStep s s') : s'.Inv := by
  obtain ⟨sound, held⟩ := inv
  cases step with
  | @lock size off len type zp' rl valid result =>
    have outcome := zfsRangeLock_outcome sound.wf valid
    rw [result] at outcome
    cases outcome with
    | granted same locks =>
      rw [same]
      exact ⟨locks.sound sound, (held.cons _).trans locks.handles.symm⟩
  | @wait size off len type zp' valid result =>
    have outcome := zfsRangeLock_outcome sound.wf valid
    rw [result] at outcome
    cases outcome with
    | waits grows => exact ⟨grows.sound sound, held.trans grows.handles.symm⟩
  | @unlock g zp' inside result =>
    obtain ⟨zp₁, result₁, unlocks⟩ := zfsRangeUnlock_unlocks sound (held.mem_iff.mp inside)
    obtain rfl : zp₁ = zp' := Option.some.inj (result₁.symm.trans result)
    refine ⟨unlocks.sound sound, ?_⟩
    have left := (held.trans unlocks.handles).erase g
    rwa [erase_cons_head] at left
  | @reduce g off len zp' inside write whole positive fits result =>
    obtain ⟨sound', before, after⟩ :=
      zfsRangeReduce_sound sound (held.mem_iff.mp inside) write whole positive fits result
    have single : s.granted = [g] := perm_singleton.mp (before ▸ held)
    refine ⟨sound', ?_⟩
    simp [single, after]

theorem rangeLocks_inv (reachable : rangeLocks.Reachable s) : s.Inv := by
  refine reachable.invariant (fun s init => ?_) fun _ _ => rangeStep_inv
  obtain ⟨tree, shared, granted⟩ := init
  have handles : s.zp.handles = [] := by simp [Znode.handles, tree, shared]
  refine ⟨⟨⟨?_, ?_, ?_, ?_, ?_⟩, fun b => ?_, ?_⟩, ?_⟩
  · exact tree ▸ ⟨Pairwise.nil, forall_mem_nil _⟩
  all_goals simp [tree, shared, granted, handles, cntAt, readersAt]

/-! ## What holds throughout -/

structure Held.Right (s : Held) : Prop where
  /-- No two ranges of the tree overlap. -/
  disjoint : s.zp.zRangeAvl.Pairwise fun r q => ∀ b, ¬(r.Covers b ∧ q.Covers b)
  /-- A reader's entry counts at every byte the read locks that cover it. -/
  readers : ∀ r ∈ s.zp.zRangeAvl, r.rType = .reader → ∀ b, r.Covers b → r.rCnt = readersAt s.granted b
  /-- No read lock covers a byte of any other entry, which is a writer's and has a count of one. -/
  writers : ∀ r ∈ s.zp.zRangeAvl, r.rType ≠ .reader →
    r.rType = .writer ∧ r.rCnt = 1 ∧ ∀ b, r.Covers b → readersAt s.granted b = 0
  /-- A write lock overlaps no other lock. -/
  exclusive : s.granted.Pairwise fun g h => g.write = true ∨ h.write = true → ∀ b, ¬(g.Covers b ∧ h.Covers b)
  /-- The entries of readers cover what the read locks cover, -/
  union : ∀ b, (∃ r ∈ s.zp.zRangeAvl, r.rType = .reader ∧ r.Covers b) ↔ ∃ g ∈ s.granted, g.write = false ∧ g.Covers b
  /-- and each lies inside of or apart from each lock. -/
  tiles : ∀ r ∈ s.zp.zRangeAvl, ∀ g ∈ s.granted, g.write = false →
    (∀ b, r.Covers b → g.Covers b) ∨ ∀ b, r.Covers b → ¬g.Covers b
  /-- A granted read lock that is not in the tree itself, one of `shared`, is covered by proxies, and every proxy belongs
      to such locks. -/
  proxies : ∀ b, (∃ r ∈ s.zp.zRangeAvl, r.rProxy = true ∧ r.Covers b) ↔ ∃ r ∈ s.zp.shared, r.Covers b
  /-- Nothing is left when every lock has been released. -/
  empty : s.granted = [] → s.zp.zRangeAvl = []

theorem Ordered.disjoint (ordered : Ordered tree) : tree.Pairwise fun r q => ∀ b, ¬(r.Covers b ∧ q.Covers b) := by
  refine ordered.apart.imp fun {r q} apart b => ?_
  rintro ⟨⟨_, high⟩, low, _⟩
  omega

theorem Ordered.unique (ordered : Ordered tree) (inTree : r ∈ tree) (inTree' : q ∈ tree)
    (covers : r.Covers b) (covers' : q.Covers b) : r = q := by
  obtain ⟨A, B, rfl⟩ := append_of_mem inTree
  obtain ⟨before, _, after⟩ := ordered.around
  obtain ⟨low, high⟩ := covers
  obtain ⟨low', high'⟩ := covers'
  rcases mem_append.mp inTree' with inA | inB
  · have := before q inA
    omega
  · rcases mem_cons.mp inB with same | inB
    · exact same.symm
    · have := after q inB
      omega

theorem readersAt_pos : 0 < readersAt locks b ↔ ∃ g ∈ locks, g.write = false ∧ g.Covers b := by
  simp [readersAt]

namespace Znode.Sound

variable (sound : zp.Sound)

include sound

theorem count_entry (inTree : r ∈ zp.zRangeAvl) (covers : r.Covers b) : r.countAt b = readersAt zp.handles b := by
  obtain ⟨A, B, tree⟩ := append_of_mem inTree
  have ordered := sound.wf.ordered
  rw [tree] at ordered
  rw [← sound.count, tree, ordered.cntAt_eq covers]

theorem inside_or_apart (inTree : r ∈ zp.zRangeAvl) (held : g ∈ zp.handles) (read : g.write = false) :
    (∀ b, r.Covers b → g.Covers b) ∨ ∀ b, r.Covers b → ¬g.Covers b := by
  obtain ⟨first, last⟩ := sound.cuts g held read
  have notFirst := first r inTree
  have notLast := last r inTree
  simp only [Rl.Covers, Grant.Covers]
  by_cases apart : r.rOff + r.rLen ≤ g.off ∨ g.off + g.len ≤ r.rOff
  · exact .inr fun b covers => by omega
  · exact .inl fun b covers => by omega

theorem cover_iff (b) :
    (∃ r ∈ zp.zRangeAvl, r.rType = .reader ∧ r.Covers b) ↔ ∃ g ∈ zp.handles, g.write = false ∧ g.Covers b := by
  rw [← readersAt_pos, ← sound.count]
  constructor
  · rintro ⟨r, inTree, type, covers⟩
    rw [sound.count, ← sound.count_entry inTree covers, countAt, if_pos ⟨type, covers⟩]
    exact (sound.wf.kinds r inTree).count_pos
  · intro counted
    obtain ⟨r, inTree, covers, type⟩ := cntAt_pos counted
    exact ⟨r, inTree, type, covers⟩

theorem proxies_iff (b) : (∃ r ∈ zp.zRangeAvl, r.rProxy = true ∧ r.Covers b) ↔ ∃ r ∈ zp.shared, r.Covers b := by
  constructor
  · rintro ⟨r, inTree, proxy, covers⟩
    have type : r.rType = .reader := by
      cases sound.wf.kinds r inTree with
      | writer _ original => simp [proxy] at original
      | alone type => exact type
      | proxy type => exact type
    obtain ⟨g, held, read, coversG⟩ := (sound.cover_iff b).mp ⟨r, inTree, type, covers⟩
    obtain ⟨q, member, rfl⟩ := mem_map.mp held
    rcases mem_append.mp member with inTree' | inShared
    · -- a lock with an entry of its own would overlap the proxy
      obtain ⟨inTree', original⟩ := mem_filter.mp inTree'
      obtain rfl := sound.wf.ordered.unique inTree inTree' covers coversG
      simp [proxy] at original
    · exact ⟨q, inShared, coversG⟩
  · rintro ⟨q, inShared, covers⟩
    obtain ⟨type, _⟩ := sound.wf.readers q inShared
    obtain ⟨r, inTree, _, coversR⟩ := (sound.cover_iff b).mpr
      ⟨q.grant, mem_map_of_mem (mem_append_right _ inShared), by simp [grant, type], covers⟩
    exact ⟨r, inTree, sound.proxy_of_shared inTree inShared coversR covers, coversR⟩

theorem exclusive : zp.handles.Pairwise fun g h => g.write = true ∨ h.write = true → ∀ b, ¬(g.Covers b ∧ h.Covers b) := by
  have isReader : ∀ q ∈ zp.shared, q.grant.write = false := by
    intro q inShared
    simp [grant, (sound.wf.readers q inShared).1]
  rw [Znode.handles, pairwise_map, pairwise_append]
  refine ⟨?_, ?_, fun r inTree q inShared _ b covers => ?_⟩
  · exact (sound.wf.ordered.disjoint.filter _).imp fun apart _ b => apart b
  · refine pairwise_of_forall_mem_list fun q inShared t inShared' write => ?_
    simp [isReader q inShared, isReader t inShared'] at write
  · obtain ⟨inTree, original⟩ := mem_filter.mp inTree
    simp [sound.proxy_of_shared inTree inShared covers.1 covers.2] at original

theorem empty_of_no_handles (nothing : zp.handles = []) : zp.zRangeAvl = [] := by
  refine eq_nil_iff_forall_not_mem.mpr fun r inTree => ?_
  have positive := (sound.wf.ordered.fits r inTree).1
  cases original : r.rProxy with
  | false =>
    have held : r.grant ∈ zp.handles :=
      mem_map_of_mem (mem_append_left _ (mem_filter.mpr ⟨inTree, by simp [original]⟩))
    simp [nothing] at held
  | true =>
    obtain ⟨q, inShared, _⟩ := (sound.proxies_iff r.rOff).mp ⟨r, inTree, original, le_rfl, by omega⟩
    have held : q.grant ∈ zp.handles := mem_map_of_mem (mem_append_right _ inShared)
    simp [nothing] at held

end Znode.Sound

theorem Held.Inv.right (inv : s.Inv) : s.Right where
  disjoint := inv.sound.wf.ordered.disjoint
  readers r inTree type b covers := by
    rw [readersAt_perm inv.held, ← inv.sound.count_entry inTree covers, countAt, if_pos ⟨type, covers⟩]
  writers r inTree notReader := by
    cases inv.sound.wf.kinds r inTree with
    | writer type _ one =>
      refine ⟨type, one, fun b covers => ?_⟩
      rw [readersAt_perm inv.held, ← inv.sound.count_entry inTree covers, countAt, if_neg fun here => notReader here.1]
    | alone type => exact absurd type notReader
    | proxy type => exact absurd type notReader
  exclusive := by
    rw [inv.held.pairwise_iff fun {g h} apart write b both => apart write.symm b both.symm]
    exact inv.sound.exclusive
  union b := by
    rw [inv.sound.cover_iff b]
    simp only [inv.held.mem_iff]
  tiles r inTree g held read := inv.sound.inside_or_apart inTree (inv.held.mem_iff.mp held) read
  proxies := inv.sound.proxies_iff
  empty nothing := inv.sound.empty_of_no_handles (nil_perm.mp (nothing ▸ inv.held))

/-- In every run the tree stands for the locks that threads hold, and no call stops the machine. -/
theorem rangeLocks_right (reachable : rangeLocks.Reachable s) :
    s.Right ∧ (∀ size off len type, Valid size off len type → (zfsRangeLock s.zp size off len type).isSome) ∧
      ∀ g ∈ s.granted, (zfsRangeUnlock s.zp g.id).isSome ∧ ∀ off len, (zfsRangeReduce s.zp g.id off len).isSome := by
  have inv := rangeLocks_inv reachable
  refine ⟨inv.right, fun size off len type valid => ?_, fun g held => ⟨?_, fun off len => ?_⟩⟩
  · have outcome := zfsRangeLock_outcome inv.sound.wf valid
    cases result : zfsRangeLock s.zp size off len type with
    | some attempt => rfl
    | none =>
      rw [result] at outcome
      cases outcome
  · obtain ⟨zp', result, _⟩ := zfsRangeUnlock_unlocks inv.sound (inv.held.mem_iff.mp held)
    rw [result]
    rfl
  · obtain ⟨r, member, rfl⟩ := mem_map.mp (inv.held.mem_iff.mp held)
    have inside : r ∈ s.zp.zRangeAvl ++ s.zp.shared := by
      rw [mem_append, mem_filter] at member
      rw [mem_append]
      exact member.imp_left fun both => both.1
    simp [zfsRangeReduce, grant, inv.sound.wf.at_of_mem inside]

/-- Two readers that overlap, and the three proxies that they share. -/
theorem rangeLocks_right_shared : ∃ s : Held, rangeLocks.Reachable s ∧
    s.granted = [⟨1, 5, 10, false⟩, ⟨0, 0, 10, false⟩] ∧
    s.zp.zRangeAvl.map (fun r => (r.rOff, r.rLen, r.rCnt)) = [(0, 5, 1), (5, 5, 2), (10, 5, 1)] ∧ s.Right := by
  have first : RangeStep ⟨⟨[], [], 0⟩, []⟩
      ⟨⟨[⟨0, 0, 10, 1, .reader, false, false, false⟩], [], 1⟩, [⟨0, 0, 10, false⟩]⟩ :=
    .lock (show Valid ⟨false, 0, 0, 0⟩ 0 10 .reader from ⟨by decide, by decide, by decide⟩)
      (show zfsRangeLock _ _ _ _ _ = some (.granted _ ⟨0, 0, 10, 1, .reader, false, false, false⟩) from rfl)
  have second : RangeStep ⟨⟨[⟨0, 0, 10, 1, .reader, false, false, false⟩], [], 1⟩, [⟨0, 0, 10, false⟩]⟩
      ⟨⟨[⟨3, 0, 5, 1, .reader, true, false, false⟩, ⟨2, 5, 5, 2, .reader, true, false, false⟩,
        ⟨4, 10, 5, 1, .reader, true, false, false⟩],
        [⟨1, 5, 10, 0, .reader, false, false, false⟩, ⟨0, 0, 10, 0, .reader, false, false, false⟩], 5⟩,
        [⟨1, 5, 10, false⟩, ⟨0, 0, 10, false⟩]⟩ :=
    .lock (show Valid ⟨false, 0, 0, 0⟩ 5 10 .reader from ⟨by decide, by decide, by decide⟩)
      (show zfsRangeLock _ _ _ _ _ = some (.granted _ ⟨1, 5, 10, 0, .reader, false, false, false⟩) by decide +kernel)
  have reached : rangeLocks.Reachable _ := .next (.next (.first ⟨rfl, rfl, rfl⟩) first) second
  exact ⟨_, reached, rfl, rfl, (rangeLocks_right reached).1⟩

/-- A write lock has an entry with a count of one, though no read lock covers its bytes. -/
theorem writer_entry_counts : ∃ s, rangeLocks.Reachable s ∧
    ∃ r ∈ s.zp.zRangeAvl, ∃ b, r.Covers b ∧ r.rCnt ≠ readersAt s.granted b := by
  have step : RangeStep ⟨⟨[], [], 0⟩, []⟩
      ⟨⟨[⟨0, 0, 1, 1, .writer, false, false, false⟩], [], 1⟩, [⟨0, 0, 1, true⟩]⟩ :=
    .lock (show Valid ⟨false, 0, 0, 0⟩ 0 1 .writer from ⟨by decide, by decide, by decide⟩)
      (show zfsRangeLock _ _ _ _ _ = some (.granted _ ⟨0, 0, 1, 1, .writer, false, false, false⟩) from rfl)
  exact ⟨_, .next (.first ⟨rfl, rfl, rfl⟩) step, _, mem_singleton_self _, 0, by decide, by decide⟩

end MacZfs.Rlock
