import MacZfs.Rlock.Reader

/-! # Unlock

The tree counts at every byte the read locks that cover it. From this it follows that the ranges of a lock that
shares its bytes are proxies which add up to it, and `zfs_range_unlock` takes it away from exactly those.
-/

namespace MacZfs.Rlock

open List Rl

variable {zp zp' : Znode} {A B : List Rl} {r : Rl} {g : Grant}

def readersAt (locks : List Grant) (b : ℕ) : ℕ := locks.countP fun g => !g.write && decide (g.Covers b)

theorem readersAt_cons (g) (locks : List Grant) (b) :
    readersAt (g :: locks) b = readersAt locks b + if g.write = false ∧ g.Covers b then 1 else 0 := by
  simp [readersAt, countP_cons]

theorem readersAt_perm (perm : locks.Perm locks') (b) : readersAt locks b = readersAt locks' b := perm.countP_eq _

namespace Znode

structure Sound (zp : Znode) : Prop where
  wf : zp.Wf
  count : ∀ b, cntAt zp.zRangeAvl b = readersAt zp.handles b
  cuts : ∀ g ∈ zp.handles, g.write = false → CutAt zp.zRangeAvl g.off ∧ CutAt zp.zRangeAvl (g.off + g.len)

theorem Wf.handle_fits (wf : zp.Wf) (held : g ∈ zp.handles) : 0 < g.len ∧ g.off + g.len < 2 ^ 64 := by
  obtain ⟨r, member, rfl⟩ := mem_map.mp held
  rcases mem_append.mp member with inTree | inShared
  · exact wf.ordered.fits r (mem_filter.mp inTree).1
  · exact (wf.readers r inShared).2.2.2

theorem Sound.tiled (sound : zp.Sound) (held : g ∈ zp.handles) (read : g.write = false) :
    Tiled zp.zRangeAvl g.off (g.off + g.len) := by
  obtain ⟨first, last⟩ := sound.cuts g held read
  refine ⟨first, last, fun b low high => ?_⟩
  rw [sound.count, readersAt, countP_pos_iff]
  exact ⟨g, held, by simp [read, Grant.Covers, low, high]⟩

theorem Locks.sound (locks : zp.Locks zp' g) (sound : zp.Sound) : zp'.Sound where
  wf := locks.wf
  count b := by rw [locks.count, readersAt_perm locks.handles, readersAt_cons, sound.count]
  cuts h held read := by
    rw [locks.handles.mem_iff, mem_cons] at held
    rcases held with rfl | held
    · exact locks.own
    · have positive := (sound.wf.handle_fits held).1
      exact locks.cuts _ _ (by omega) (sound.tiled held read)

theorem Grows.sound (grows : zp.Grows zp' 0 0) (sound : zp.Sound) : zp'.Sound where
  wf := grows.wf
  count b := by rw [grows.count, if_neg (by omega), Nat.add_zero, sound.count, readersAt_perm grows.handles]
  cuts h held read := by
    rw [grows.handles.mem_iff] at held
    obtain ⟨first, last⟩ := sound.cuts h held read
    exact ⟨grows.cuts _ (.inr (Nat.zero_le _)) first, grows.cuts _ (.inr (Nat.zero_le _)) last⟩

structure Unlocks (zp zp' : Znode) (g : Grant) : Prop where
  wf : zp'.Wf
  count : ∀ b, cntAt zp.zRangeAvl b = cntAt zp'.zRangeAvl b + if g.write = false ∧ g.Covers b then 1 else 0
  handles : zp.handles.Perm (g :: zp'.handles)
  cuts : ∀ y, CutAt zp.zRangeAvl y → CutAt zp'.zRangeAvl y

theorem Unlocks.sound (unlocks : zp.Unlocks zp' g) (sound : zp.Sound) : zp'.Sound where
  wf := unlocks.wf
  count b := by
    have count := sound.count b
    rw [unlocks.count, readersAt_perm unlocks.handles, readersAt_cons] at count
    omega
  cuts h held read := by
    obtain ⟨first, last⟩ := sound.cuts h (unlocks.handles.mem_iff.mpr (mem_cons_of_mem _ held)) read
    exact ⟨unlocks.cuts _ first, unlocks.cuts _ last⟩

/-! ## A lock with an entry of its own -/

theorem Wf.without (wf : zp.Wf) (tree : zp.zRangeAvl = A ++ r :: B) :
    zp.Replaced { zp with zRangeAvl := A ++ B } A [r] [] B := by
  have ids := wf.ids
  rw [map_append, nodup_append'] at ids
  refine ⟨tree, rfl, ⟨Pairwise.nil, forall_mem_nil _⟩, by simp, by simp, forall_mem_nil _,
    wf.readers, ids.2.1, fun s member => .inl ?_, le_rfl⟩
  exact mem_map_of_mem (mem_append_right _ member)

theorem Wf.remove (wf : zp.Wf) (tree : zp.zRangeAvl = A ++ r :: B) (original : r.rProxy = false) :
    zp.Unlocks { zp with zRangeAvl := A ++ B } r.grant := by
  have replaced := wf.without tree
  refine ⟨replaced.wf wf, fun b => ?_, (replaced.handles [r.grant] [] (by simp [grantsOf, original])).symm, ?_⟩
  · have count := replaced.count b
    have counted : r.countAt b = if r.grant.write = false ∧ r.grant.Covers b then 1 else 0 := by
      cases wf.kinds r (by simp [tree]) with
      | writer type => simp [countAt, grant, type]
      | alone type _ one => simp [countAt, grant, Grant.Covers, Rl.Covers, type, one]
      | proxy _ proxy => simp [original] at proxy
    rw [← counted]
    simpa [cntAt] using count.symm
  · intro y cut
    rw [tree, cutAt_append, cutAt_cons] at cut
    exact cutAt_append.mpr ⟨cut.1, cut.2.2⟩

/-! ## A lock with proxies -/

/-- Proxies from `c` to `d` were counted once less. -/
structure Releases (zp zp' : Znode) (c d : ℕ) : Prop where
  wf : zp'.Wf
  count : ∀ b, cntAt zp.zRangeAvl b = cntAt zp'.zRangeAvl b + if c ≤ b ∧ b < d then 1 else 0
  handles : zp'.handles.Perm zp.handles
  cuts : ∀ y, CutAt zp.zRangeAvl y → CutAt zp'.zRangeAvl y
  shared : zp'.shared = zp.shared

theorem Releases.trans {zp₁ zp₂ c d e} (first : zp.Releases zp₁ c d) (second : zp₁.Releases zp₂ d e)
    (cd : c ≤ d) (de : d ≤ e) : zp.Releases zp₂ c e where
  wf := second.wf
  count b := by
    rw [first.count, second.count, add_assoc]
    congr 1
    split_ifs <;> omega
  handles := second.handles.trans first.handles
  cuts y cut := second.cuts y (first.cuts y cut)
  shared := second.shared.trans first.shared

end Znode

theorem release_releases (wf : zp.Wf) (tree : zp.zRangeAvl = A ++ r :: B) (type : r.rType = .reader)
    (proxy : r.rProxy = true) :
    ∃ M, (release zp r).zRangeAvl = A ++ (M ++ B) ∧ (∀ m ∈ M, m.rOff + m.rLen = r.rOff + r.rLen) ∧
      zp.Releases (release zp r) r.rOff (r.rOff + r.rLen) := by
  have ordered := wf.ordered
  rw [tree] at ordered
  obtain ⟨_, fits, _⟩ := ordered.around
  have used := (wf.kinds r (by simp [tree])).count_pos
  by_cases last : r.rCnt - 1 = 0
  · have released : release zp r = { zp with zRangeAvl := A ++ B } := by
      rw [release, if_pos last, tree, avlRemove_entry ordered rfl]
    have replaced := wf.without tree
    rw [released]
    refine ⟨[], rfl, forall_mem_nil _, replaced.wf wf, fun b => ?_,
      replaced.handles [] [] (by simp [Znode.grantsOf, proxy]), fun y cut => ?_, rfl⟩
    · have count := replaced.count b
      have one : r.rCnt = 1 := by omega
      simpa [cntAt, countAt, Rl.Covers, type, one] using count.symm
    · rw [tree, cutAt_append, cutAt_cons] at cut
      exact cutAt_append.mpr ⟨cut.1, cut.2.2⟩
  · have released : release zp r = { zp with zRangeAvl := A ++ { r with rCnt := r.rCnt - 1 } :: B } := by
      rw [release, if_neg last, Znode.modify, tree, avlModify_entry ordered rfl]
    have replaced := wf.replaced tree { r with rCnt := r.rCnt - 1 } fits
      (.proxy type proxy (pos_of_ne_zero last)) rfl rfl rfl
    rw [released]
    refine ⟨[{ r with rCnt := r.rCnt - 1 }], rfl, by simp, replaced.wf wf, fun b => ?_,
      replaced.handles [] [] (by simp [Znode.grantsOf, proxy]), fun y cut => ?_, rfl⟩
    · have count := replaced.count b
      have old : cntAt [r] b = if r.rOff ≤ b ∧ b < r.rOff + r.rLen then r.rCnt else 0 := by
        simp [cntAt, countAt, Rl.Covers, type]
      have new : cntAt [{ r with rCnt := r.rCnt - 1 }] b =
          if r.rOff ≤ b ∧ b < r.rOff + r.rLen then r.rCnt - 1 else 0 := by
        simp [cntAt, countAt, Rl.Covers, type]
      rw [old, new] at count
      split_ifs at count ⊢ <;> omega
    · rw [tree, cutAt_append, cutAt_cons] at cut
      exact cutAt_append.mpr ⟨cut.1, cutAt_cons.mpr cut.2⟩

theorem Ordered.cntAt_eq (ordered : Ordered (A ++ r :: B)) (covers : r.Covers b) :
    cntAt (A ++ r :: B) b = r.countAt b := by
  obtain ⟨before, _, after⟩ := ordered.around
  obtain ⟨low, high⟩ := covers
  rw [cntAt_append, cntAt_cons, cntAt_eq_zero, cntAt_eq_zero, zero_add, add_zero]
  · rintro s member ⟨lowS, _⟩
    have := after s member
    omega
  · rintro s member ⟨_, highS⟩
    have := before s member
    omega

theorem cntAt_pos (counted : 0 < cntAt tree b) : ∃ r ∈ tree, r.Covers b ∧ r.rType = .reader := by
  by_contra nothing
  have zero : cntAt tree b = 0 := by
    apply sum_eq_zero
    intro n member
    obtain ⟨r, inTree, rfl⟩ := mem_map.mp member
    rw [countAt, if_neg fun here => nothing ⟨r, inTree, here.2, here.1⟩]
  omega

theorem unlockLoop_releases (B) :
    ∀ (rounds : ℕ) (zp : Znode) (A : List Rl) (c len : ℕ), B.length < rounds → zp.Wf → c + len < 2 ^ 64 →
      zp.zRangeAvl = A ++ B → (∀ a ∈ A, a.rOff + a.rLen ≤ c) → (∀ b ∈ B, c ≤ b.rOff) →
      CutAt zp.zRangeAvl (c + len) → (∀ b, c ≤ b → b < c + len → 0 < cntAt zp.zRangeAvl b) →
      (∀ r ∈ B, r.rOff < c + len → r.rProxy = true) →
      ∃ zp', unlockLoop rounds zp len B.head? = some zp' ∧ zp.Releases zp' c (c + len) := by
  have done : ∀ {rounds : ℕ} {zp : Znode} (wf : zp.Wf) (c : ℕ) (next : Option Rl),
      ∃ zp', unlockLoop rounds zp 0 next = some zp' ∧ zp.Releases zp' c (c + 0) := fun wf c _ =>
    ⟨_, by rw [unlockLoop], wf, fun b => by rw [if_neg (by omega), add_zero], Perm.refl _, fun _ cut => cut, rfl⟩
  induction B with
  | nil =>
    intro rounds zp A c len _ wf _ tree before _ _ counted _
    cases len with
    | zero => exact done wf c _
    | succ len =>
      obtain ⟨r, member, ⟨_, high⟩, _⟩ := cntAt_pos (counted c le_rfl (by omega))
      rw [tree, append_nil] at member
      have := before r member
      omega
  | cons r rest ih =>
    intro rounds zp A c len enough wf small tree before after cut counted proxies
    cases len with
    | zero => exact done wf c _
    | succ len =>
      obtain ⟨rounds, rfl⟩ : ∃ n, rounds = n + 1 := ⟨rounds - 1, by simp at enough; omega⟩
      have ordered := wf.ordered
      rw [tree] at ordered
      obtain ⟨_, fits, later⟩ := ordered.around
      have positive := fits.1
      have start := after r mem_cons_self
      -- the entry over the first byte is this one
      have here : r.rOff = c ∧ r.rType = .reader := by
        obtain ⟨s, member, ⟨low, high⟩, type⟩ := cntAt_pos (counted c le_rfl (by omega))
        rw [tree] at member
        rcases mem_append.mp member with inA | inB
        · have := before s inA
          omega
        · rcases mem_cons.mp inB with rfl | inRest
          · exact ⟨by omega, type⟩
          · have := later s inRest
            omega
      have inside : r.rOff + r.rLen ≤ c + (len + 1) := by
        have := cut r (by simp [tree])
        omega
      obtain ⟨M, tree₁, ends, releases⟩ := release_releases wf tree here.2 (proxies r mem_cons_self (by omega))
      have left : u64Sub (len + 1) r.rLen = len + 1 - r.rLen := u64Sub_of_le (by omega) (by omega)
      have sum : r.rOff + r.rLen + (len + 1 - r.rLen) = c + (len + 1) := by omega
      have before₁ : ∀ a ∈ A ++ M, a.rOff + a.rLen ≤ r.rOff + r.rLen := by
        intro a member
        rcases mem_append.mp member with inA | inM
        · have := before a inA
          omega
        · exact (ends a inM).le
      have counted₁ : ∀ b, r.rOff + r.rLen ≤ b → b < r.rOff + r.rLen + (len + 1 - r.rLen) →
          0 < cntAt (release zp r).zRangeAvl b := by
        intro b low high
        have old := counted b (by omega) (by omega)
        rw [releases.count, if_neg (by omega)] at old
        exact old
      obtain ⟨zp', result, rest'⟩ := ih rounds (release zp r) (A ++ M) (r.rOff + r.rLen) (len + 1 - r.rLen)
        (by simp at enough; omega) releases.wf (by omega) (by rw [tree₁, append_assoc]) before₁ later
        (by rw [sum]; exact releases.cuts _ cut) counted₁
        (fun s member less => proxies s (mem_cons_of_mem _ member) (by omega))
      rw [sum] at rest'
      have both := releases.trans rest' (by omega) inside
      rw [here.1] at both
      refine ⟨zp', ?_, both⟩
      rw [head?_cons, unlockLoop, tree, avlNext_entry ordered rfl, left]
      · exact result
      · exact Nat.succ_ne_zero len

/-! ## Any lock -/

namespace Znode

/-- An entry over a byte of a lock that is not in the tree itself is a proxy. -/
theorem Sound.proxy_of_shared (sound : zp.Sound) (inTree : r ∈ zp.zRangeAvl) (inShared : s ∈ zp.shared)
    (covers : r.Covers b) (coversS : s.Covers b) : r.rProxy = true := by
  obtain ⟨A, B, tree⟩ := append_of_mem inTree
  have ordered := sound.wf.ordered
  rw [tree] at ordered
  have counted := sound.count b
  rw [tree, ordered.cntAt_eq covers] at counted
  have read := (sound.wf.readers s inShared).1
  -- the lock itself is one of those that cover the byte
  have shared : 0 < readersAt (zp.shared.map grant) b := by
    rw [readersAt, countP_pos_iff]
    exact ⟨s.grant, mem_map_of_mem inShared, by simpa [grant, Grant.Covers, read] using ⟨coversS.1, coversS.2⟩⟩
  have split : readersAt zp.handles b =
      readersAt ((zp.zRangeAvl.filter fun r => !r.rProxy).map grant) b + readersAt (zp.shared.map grant) b := by
    simp [handles, readersAt]
  cases sound.wf.kinds r inTree with
  | writer type =>
    simp only [countAt, type, reduceCtorEq, false_and, if_false] at counted
    omega
  | alone type original one =>
    have own : 0 < readersAt ((zp.zRangeAvl.filter fun r => !r.rProxy).map grant) b := by
      rw [readersAt, countP_pos_iff]
      refine ⟨r.grant, mem_map_of_mem (mem_filter.mpr ⟨inTree, by simp [original]⟩), ?_⟩
      simpa [grant, Grant.Covers, type] using ⟨covers.1, covers.2⟩
    rw [countAt, if_pos ⟨type, covers⟩, one] at counted
    omega
  | proxy _ proxy => exact proxy

theorem Wf.at_of_mem (wf : zp.Wf) (member : r ∈ zp.zRangeAvl ++ zp.shared) : zp.at r.id = some r := by
  obtain ⟨before, after, split⟩ := append_of_mem member
  have ids := wf.ids
  rw [Znode.at, split, find?_eq_some_iff_append]
  refine ⟨by simp, before, after, rfl, fun s inside => ?_⟩
  rw [split, map_append, nodup_append'] at ids
  have different : s.id ≠ r.id := fun same =>
    ids.2.2 (mem_map_of_mem inside) (same ▸ mem_map_of_mem mem_cons_self)
  simpa using different

end Znode

theorem Znode.Wf.forget (wf : zp.Wf) (shared : zp.shared = S ++ r :: T) :
    Znode.Wf { zp with shared := zp.shared.filter fun s => s.id ≠ r.id } ∧
      zp.handles.Perm (r.grant :: Znode.handles { zp with shared := zp.shared.filter fun s => s.id ≠ r.id }) := by
  have ids := wf.ids
  rw [shared, map_append, map_append, map_cons, nodup_append', nodup_middle, nodup_cons, ← map_append] at ids
  have left : (zp.shared.filter fun s => s.id ≠ r.id) = S ++ T := by
    have others : ∀ s ∈ S ++ T, s.id ≠ r.id := fun s member same =>
      ids.2.1.1 (same ▸ mem_map_of_mem member)
    rw [shared, filter_append, filter_cons_of_neg (by simp), ← filter_append, filter_eq_self]
    simpa using others
  rw [left]
  have inside : ∀ s ∈ S ++ T, s ∈ zp.shared := by
    intro s member
    rw [shared]
    simp only [mem_append, mem_cons] at member ⊢
    tauto
  refine ⟨⟨wf.ordered, wf.kinds, fun s member => wf.readers s (inside s member), ?_, fun s member => ?_⟩, ?_⟩
  · show ((zp.zRangeAvl ++ (S ++ T)).map Rl.id).Nodup
    rw [map_append, nodup_append']
    refine ⟨ids.1, ids.2.1.2, fun id inTree inShared => ?_⟩
    obtain ⟨s, member, rfl⟩ := mem_map.mp inShared
    refine ids.2.2 inTree ?_
    have : s ∈ zp.shared := inside s member
    rw [shared] at this
    simpa using mem_map_of_mem (f := Rl.id) this
  · rcases List.mem_append.mp member with inTree | inShared
    · exact wf.fresh s (mem_append_left _ inTree)
    · exact wf.fresh s (mem_append_right _ (inside s inShared))
  · simp only [Znode.handles, shared, map_append, map_cons]
    rw [← append_assoc, ← append_assoc]
    exact perm_middle

theorem zfsRangeUnlockReader_shared (sound : zp.Sound) (member : r ∈ zp.shared) :
    ∃ zp', zfsRangeUnlockReader zp r = some zp' ∧ zp.Unlocks zp' r.grant := by
  obtain ⟨type, original, zero, fits⟩ := sound.wf.readers r member
  have held : r.grant ∈ zp.handles := mem_map_of_mem (mem_append_right _ member)
  have write : r.grant.write = false := by simp [grant, type]
  obtain ⟨first, last, counted⟩ := sound.tiled held write
  change CutAt zp.zRangeAvl r.rOff at first
  change ∀ b, r.rOff ≤ b → b < r.rOff + r.rLen → 0 < cntAt zp.zRangeAvl b at counted
  have positive := fits.1
  have ordered := sound.wf.ordered
  -- an entry starts where the lock does
  obtain ⟨A, s, B, tree, here, found⟩ : ∃ A s B, zp.zRangeAvl = A ++ s :: B ∧ s.rOff = r.rOff ∧
      avlFind zfsRangeCompare r zp.zRangeAvl = ⟨A, some s, B⟩ := by
    rcases ordered.find r with here | ⟨A, B, tree, below, above, _⟩
    · exact here
    · obtain ⟨s, inTree, ⟨low, high⟩, _⟩ := cntAt_pos (counted r.rOff le_rfl (by omega))
      have across := first s inTree
      rw [tree] at inTree
      rcases mem_append.mp inTree with inA | inB
      · have := below s inA
        omega
      · have := above s inB
        omega
  rw [tree] at ordered
  obtain ⟨before, _, after⟩ := ordered.around
  have beyond : ∀ b ∈ s :: B, r.rOff ≤ b.rOff := by
    intro b inside
    rcases mem_cons.mp inside with rfl | inB
    · exact here.ge
    · have := after b inB
      omega
  have proxies : ∀ e ∈ s :: B, e.rOff < r.rOff + r.rLen → e.rProxy = true := by
    intro e inside less
    have inTree : e ∈ zp.zRangeAvl := by
      rw [tree]
      exact mem_append_right _ inside
    have positiveE := (sound.wf.ordered.fits e inTree).1
    exact sound.proxy_of_shared inTree member (b := e.rOff) ⟨le_rfl, by omega⟩ ⟨beyond e inside, less⟩
  obtain ⟨zp₁, result, releases⟩ := unlockLoop_releases (s :: B) (zp.zRangeAvl.length + 1) zp A r.rOff r.rLen
    (by simp [tree]) sound.wf fits.2 tree (here ▸ before) beyond last counted proxies
  obtain ⟨S, T, shared⟩ := append_of_mem (releases.shared ▸ member)
  obtain ⟨wf', perm⟩ := releases.wf.forget shared
  refine ⟨_, ?_, wf', fun b => ?_, releases.handles.symm.trans perm, releases.cuts⟩
  · rw [zfsRangeUnlockReader, if_neg (by omega), found]
    simp only [show unlockLoop _ _ _ (some s) = _ from result]
    rfl
  · rw [releases.count]
    simp [Grant.Covers, grant, type]

theorem zfsRangeUnlock_unlocks (sound : zp.Sound) (held : g ∈ zp.handles) :
    ∃ zp', zfsRangeUnlock zp g.id = some zp' ∧ zp.Unlocks zp' g := by
  obtain ⟨r, member, rfl⟩ := mem_map.mp held
  rcases mem_append.mp member with inTree | inShared
  · obtain ⟨inTree, original⟩ := mem_filter.mp inTree
    have original : r.rProxy = false := by simpa using original
    obtain ⟨A, B, tree⟩ := append_of_mem inTree
    have ordered := sound.wf.ordered
    rw [tree] at ordered
    have one : r.rCnt = 1 := by
      cases sound.wf.kinds r inTree with
      | writer _ _ one => exact one
      | alone _ _ one => exact one
      | proxy _ proxy => simp [original] at proxy
    refine ⟨_, ?_, sound.wf.remove tree original⟩
    simp only [zfsRangeUnlock, grant, sound.wf.at_of_mem (mem_append_left _ inTree), Option.bind_eq_bind,
      Option.bind_some, zfsRangeUnlockReader, one, if_true, tree, avlRemove_entry ordered rfl, ite_self]
  · obtain ⟨zp', result, unlocks⟩ := zfsRangeUnlockReader_shared sound inShared
    refine ⟨zp', ?_, unlocks⟩
    simp [zfsRangeUnlock, grant, sound.wf.at_of_mem (mem_append_right _ inShared),
      (sound.wf.readers r inShared).1, result]

end MacZfs.Rlock
