import MacZfs.Rlock.Tree

/-! # Readers among readers

A read lock that overlaps others is in the tree by proxies only: `zfs_range_add_reader` splits what its ends lie in,
fills the gaps and counts every range between once more.
-/

namespace MacZfs.Rlock

open List

variable {zp : Znode} {A B : List Rl} {r : Rl} {stop : ℕ}

theorem Ordered.cut {c} (ordered : Ordered (A ++ r :: B)) (edge : c = r.rOff ∨ c = r.rOff + r.rLen) :
    CutAt (A ++ r :: B) c := by
  obtain ⟨before, _, after⟩ := ordered.around
  rw [cutAt_append, cutAt_cons]
  refine ⟨fun a member => ?_, by omega, fun b member => ?_⟩
  · have := before a member
    omega
  · have := after b member
    omega

theorem addReaderEnd_grows (wf : zp.Wf) (tree : zp.zRangeAvl = A ++ B) {c} (less : c < stop)
    (small : stop < 2 ^ 64) (before : ∀ a ∈ A, a.rOff + a.rLen ≤ c) (after : ∀ b ∈ B, stop ≤ b.rOff) (prev : Rl)
    (here : prev.stop = c) :
    ∃ zp', addReaderEnd zp stop (some prev) = some zp' ∧ zp.Grows zp' c stop ∧ CutAt zp'.zRangeAvl stop := by
  have length : u64Sub stop c = stop - c := u64Sub_of_le less.le small
  have sum : c + (stop - c) = stop := by omega
  obtain ⟨zp', r', result, tree', off, len, _, grows⟩ := zfsRangeNewProxy_grows wf tree
    (show 0 < stop - c by omega) (show c + (stop - c) < 2 ^ 64 by omega) before (by rwa [sum])
  rw [sum] at grows
  refine ⟨zp', by rw [addReaderEnd, here, length, result], grows, ?_⟩
  have cut := (tree' ▸ grows.wf.ordered).cut (.inr rfl)
  rwa [← tree', off, len, sum] at cut

theorem proxyBefore_grows {next c} (wf : zp.Wf) (tree : zp.zRangeAvl = A ++ next :: B)
    (before : ∀ a ∈ A, a.rOff + a.rLen ≤ c) (le : c ≤ next.rOff) :
    ∃ zp' A', proxyBefore zp c next = some zp' ∧ zp'.zRangeAvl = A' ++ next :: B ∧ zp.Grows zp' c next.rOff := by
  have ordered := wf.ordered
  rw [tree] at ordered
  obtain ⟨_, fits, after⟩ := ordered.around
  have bound := fits.2
  rcases le.lt_or_eq with less | rfl
  · have length : u64Sub next.rOff c = next.rOff - c := u64Sub_of_le le (by omega)
    have sum : c + (next.rOff - c) = next.rOff := by omega
    have later : ∀ b ∈ next :: B, c + (next.rOff - c) ≤ b.rOff := by
      intro b member
      rcases mem_cons.mp member with rfl | member
      · omega
      · have := after b member
        omega
    obtain ⟨zp', r', result, tree', _, _, _, grows⟩ := zfsRangeNewProxy_grows wf tree
      (show 0 < next.rOff - c by omega) (by omega) before later
    rw [sum] at grows
    exact ⟨zp', A ++ [r'], by simp [proxyBefore, less, length, result], by simp [tree'], grows⟩
  · exact ⟨zp, A, by simp [proxyBefore], tree, Znode.Grows.refl wf _⟩

theorem addReaderGap_grows {next c} (wf : zp.Wf) (tree : zp.zRangeAvl = A ++ next :: B)
    (before : ∀ a ∈ A, a.rOff + a.rLen ≤ c) (le : c ≤ next.rOff) (prev : Option Rl)
    (came : (∃ p, prev = some p ∧ p.stop = c) ∨ prev = none ∧ next.rOff = c) :
    ∃ zp' A', addReaderGap zp next prev = some zp' ∧ zp'.zRangeAvl = A' ++ next :: B ∧ zp.Grows zp' c next.rOff := by
  rcases came with ⟨p, rfl, here⟩ | ⟨rfl, rfl⟩
  · rw [addReaderGap, here]
    exact proxyBefore_grows wf tree before le
  · exact ⟨zp, A, rfl, tree, Znode.Grows.refl wf _⟩

/-- The loop counts what is left of the range. `c` is where it has come to. -/
theorem addReaderLoop_grows (small : stop < 2 ^ 64) (B) :
    ∀ (rounds : ℕ) (zp : Znode) (A : List Rl) (c : ℕ) (prev : Option Rl), B.length < rounds → zp.Wf →
      zp.zRangeAvl = A ++ B → c < stop → (∀ a ∈ A, a.rOff + a.rLen ≤ c) → (∀ b ∈ B, c ≤ b.rOff) →
      (∀ b ∈ B, b.rOff < stop → b.rType = .reader) →
      ((∃ p, prev = some p ∧ p.stop = c) ∨ prev = none ∧ ∃ next rest, B = next :: rest ∧ next.rOff = c) →
      ∃ zp', addReaderLoop stop rounds zp prev B.head? = some zp' ∧ zp.Grows zp' c stop ∧
        CutAt zp'.zRangeAvl stop := by
  induction B with
  | nil =>
    intro rounds zp A c prev enough wf tree less before _ _ came
    obtain ⟨rounds, rfl⟩ : ∃ n, rounds = n + 1 := ⟨rounds - 1, by simp at enough; omega⟩
    rcases came with ⟨p, rfl, here⟩ | ⟨_, next, rest, impossible, _⟩
    · simpa [addReaderLoop] using addReaderEnd_grows wf tree less small before (by simp) p here
    · simp at impossible
  | cons next rest ih =>
    intro rounds zp A c prev enough wf tree less before after readers came
    obtain ⟨rounds, rfl⟩ : ∃ n, rounds = n + 1 := ⟨rounds - 1, by simp at enough; omega⟩
    have ordered := wf.ordered
    rw [tree] at ordered
    obtain ⟨_, fits, later⟩ := ordered.around
    have came : (∃ p, prev = some p ∧ p.stop = c) ∨ prev = none ∧ next.rOff = c := by
      rcases came with came | ⟨isNone, n, r, same, here⟩
      · exact .inl came
      · exact .inr ⟨isNone, (List.cons.inj same).1 ▸ here⟩
    by_cases beyond : stop ≤ next.rOff
    · rcases came with ⟨p, rfl, here⟩ | ⟨_, here⟩
      · have allBeyond : ∀ b ∈ next :: rest, stop ≤ b.rOff := by
          intro b member
          rcases mem_cons.mp member with rfl | member
          · exact beyond
          · have := later b member
            omega
        simpa [addReaderLoop, beyond] using addReaderEnd_grows wf tree less small before allBeyond p here
      · omega
    have reader := readers next mem_cons_self (by omega)
    obtain ⟨zp₁, A₁, filled, tree₁, grows₁⟩ := addReaderGap_grows wf tree before
      (after next mem_cons_self) prev came
    have le := after next mem_cons_self
    -- the round is the gap, and then what is done with the entry
    have round : addReaderLoop stop (rounds + 1) zp prev (some next) =
        if stop = next.stop then (zfsRangeProxify zp₁ next).bind fun done => some (bump done.1 done.2)
        else if stop < next.stop then (zfsRangeSplit zp₁ next stop).bind fun done => some (bump done.1 done.2)
        else (zfsRangeProxify zp₁ next).bind fun done =>
          addReaderLoop stop rounds (bump done.1 done.2) (some { done.2 with rCnt := done.2.rCnt + 1 })
            (avlNext (bump done.1 done.2).zRangeAvl { done.2 with rCnt := done.2.rCnt + 1 }) := by
      rw [addReaderLoop, if_neg beyond, filled]
      rfl
    simp only [head?_cons, round, fits.stop_eq]
    split_ifs with ends inside
    · obtain ⟨zp₂, r₂, result, tree₂, off, len, _, type, proxy, grows₂⟩ := zfsRangeProxify_grows grows₁.wf tree₁ reader
      obtain ⟨tree₃, grows₃⟩ := bump_grows (grows₂ next.rOff).wf tree₂ type proxy
      rw [off, len, ← ends] at grows₃
      refine ⟨bump zp₂ r₂, by rw [result]; rfl, grows₁.trans ((grows₂ _).trans grows₃ le_rfl (by omega)) le (by omega), ?_⟩
      have cut := (tree₃ ▸ grows₃.wf.ordered).cut (.inr rfl)
      rwa [← tree₃, show r₂.rOff + r₂.rLen = stop by rw [off, len, ends]] at cut
    · obtain ⟨zp₂, front, rear, result, tree₂, off, len, type, proxy, _, _, _, _, grows₂⟩ :=
        zfsRangeSplit_grows grows₁.wf tree₁ reader (by omega) inside
      obtain ⟨tree₃, grows₃⟩ := bump_grows (grows₂ next.rOff).wf tree₂ type proxy
      have sum : next.rOff + (stop - next.rOff) = stop := by omega
      rw [off, len, sum] at grows₃
      refine ⟨bump zp₂ front, by rw [result]; rfl,
        grows₁.trans ((grows₂ _).trans grows₃ le_rfl (by omega)) le (by omega), ?_⟩
      have cut := (tree₃ ▸ grows₃.wf.ordered).cut (.inr rfl)
      rwa [← tree₃, show front.rOff + front.rLen = stop by rw [off, len, sum]] at cut
    · obtain ⟨zp₂, r₂, result, tree₂, off, len, _, type, proxy, grows₂⟩ := zfsRangeProxify_grows grows₁.wf tree₁ reader
      obtain ⟨tree₃, grows₃⟩ := bump_grows (grows₂ next.rOff).wf tree₂ type proxy
      rw [off, len] at grows₃
      have ordered₃ := grows₃.wf.ordered
      rw [tree₃] at ordered₃
      have before₃ : ∀ a ∈ A₁ ++ [{ r₂ with rCnt := r₂.rCnt + 1 }], a.rOff + a.rLen ≤ next.rOff + next.rLen := by
        intro a member
        rcases mem_append.mp member with member | member
        · have : a.rOff + a.rLen ≤ r₂.rOff := ordered₃.around.1 a member
          omega
        · rw [mem_singleton.mp member]
          rw [off, len]
      have prevStop : Rl.stop { r₂ with rCnt := r₂.rCnt + 1 } = next.rOff + next.rLen := by
        rw [Rl.Fits.stop_eq ordered₃.around.2.1]
        rw [off, len]
      obtain ⟨zp', finished, grows', cut⟩ := ih rounds (bump zp₂ r₂) (A₁ ++ [{ r₂ with rCnt := r₂.rCnt + 1 }])
        (next.rOff + next.rLen) (some { r₂ with rCnt := r₂.rCnt + 1 }) (by simp at enough; omega) grows₃.wf
        (by simp [tree₃]) (by omega) before₃ later (fun b member => readers b (mem_cons_of_mem _ member))
        (.inl ⟨_, rfl, prevStop⟩)
      refine ⟨zp', ?_, grows₁.trans ((grows₂ _).trans (grows₃.trans grows' (by omega) (by omega)) le_rfl (by omega))
        le (by omega), cut⟩
      rw [result, Option.bind_some, ← finished]
      simp only [tree₃, avlNext_entry ordered₃ rfl]

/-! ## A new reader -/

namespace Znode

def alloc (zp : Znode) : Znode := { zp with fresh := zp.fresh + 1 }

theorem Wf.alloc (wf : zp.Wf) : zp.alloc.Wf :=
  ⟨wf.ordered, wf.kinds, wf.readers, wf.ids, fun s member => (wf.fresh s member).trans (Nat.lt_succ_self _)⟩

structure Locks (zp zp' : Znode) (g : Grant) : Prop where
  wf : zp'.Wf
  count : ∀ b, cntAt zp'.zRangeAvl b = cntAt zp.zRangeAvl b + if g.write = false ∧ g.Covers b then 1 else 0
  handles : zp'.handles.Perm (g :: zp.handles)
  cuts : ∀ a z, a < z → Tiled zp.zRangeAvl a z → CutAt zp'.zRangeAvl a ∧ CutAt zp'.zRangeAvl z
  own : CutAt zp'.zRangeAvl g.off ∧ CutAt zp'.zRangeAvl (g.off + g.len)

theorem Wf.insert (wf : zp.Wf) (tree : zp.zRangeAvl = A ++ B) (new) (fits : new.Fits) (kind : new.Kind)
    (original : new.rProxy = false) (newId : new.id = zp.fresh) (before : ∀ a ∈ A, a.rOff + a.rLen ≤ new.rOff)
    (after : ∀ b ∈ B, new.rOff + new.rLen ≤ b.rOff) :
    zp.Locks { zp.alloc with zRangeAvl := A ++ new :: B } new.grant := by
  have replaced : zp.Replaced { zp.alloc with zRangeAvl := A ++ new :: B } A [] [new] B := by
    refine ⟨tree, rfl, ordered_single fits, by simpa using before, by simpa using after, by simpa using kind,
      wf.readers, ?_, ?_, Nat.le_succ _⟩
    · have ids := wf.ids
      rw [map_append, nodup_append'] at ids
      simp only [singleton_append, map_cons, nodup_cons, mem_map, not_exists, not_and]
      refine ⟨fun s member same => ?_, ids.2.1⟩
      have := wf.fresh s (mem_append_right _ member)
      omega
    · intro s member
      simp only [singleton_append, mem_cons] at member
      rcases member with rfl | member
      · exact .inr ⟨newId.ge, newId ▸ Nat.lt_succ_self _⟩
      · exact .inl (mem_map_of_mem member)
  have wf' := replaced.wf wf
  refine ⟨wf', fun b => ?_, ?_, fun a z less tiled => replaced.fills_cut less tiled,
    wf'.ordered.cut (.inl rfl), wf'.ordered.cut (.inr rfl)⟩
  · have count := replaced.count b
    have counted : new.countAt b = if new.grant.write = false ∧ new.grant.Covers b then 1 else 0 := by
      cases kind with
      | writer type => simp [Rl.countAt, Rl.grant, type]
      | alone type _ one => simp [Rl.countAt, Rl.grant, Grant.Covers, Rl.Covers, type, one]
      | proxy _ proxy => simp [original] at proxy
    rw [← counted]
    simpa [cntAt] using count
  · exact replaced.handles [] [new.grant] (by simp [grantsOf, original, Znode.alloc])

theorem Grows.share {zp₃} {new : Rl} (grows : zp.alloc.Grows zp₃ new.rOff (new.rOff + new.rLen)) (wf : zp.Wf)
    (newId : new.id = zp.fresh) (fits : new.Fits) (type : new.rType = .reader) (original : new.rProxy = false)
    (first : CutAt zp₃.zRangeAvl new.rOff) (last : CutAt zp₃.zRangeAvl (new.rOff + new.rLen)) :
    zp.Locks { zp₃ with shared := { new with rCnt := 0 } :: zp₃.shared } new.grant := by
  have unused : new.id ∉ (zp₃.zRangeAvl ++ zp₃.shared).map Rl.id := by
    intro inside
    obtain ⟨s, member, same⟩ := mem_map.mp inside
    rcases grows.known s member with old | more
    · obtain ⟨t, inTree, sameId⟩ := mem_map.mp old
      have := wf.fresh t inTree
      omega
    · have : zp.fresh + 1 ≤ s.id := more
      omega
  refine ⟨⟨grows.wf.ordered, grows.wf.kinds, ?_, ?_, ?_⟩, fun b => ?_, ?_, ?_, first, last⟩
  · exact forall_mem_cons.mpr ⟨⟨type, original, rfl, fits⟩, grows.wf.readers⟩
  · show ((zp₃.zRangeAvl ++ _ :: zp₃.shared).map Rl.id).Nodup
    rw [map_append, map_cons, nodup_middle, nodup_cons, ← map_append]
    exact ⟨unused, grows.wf.ids⟩
  · intro r member
    simp only [mem_append, mem_cons] at member
    have known := grows.fresh
    rcases member with inTree | rfl | inShared
    · exact grows.wf.fresh r (mem_append_left _ inTree)
    · show new.id < zp₃.fresh
      rw [newId]
      exact known
    · exact grows.wf.fresh r (mem_append_right _ inShared)
  · have write : new.grant.write = false := by simp [Rl.grant, type]
    simp only [write, true_and]
    exact grows.count b
  · have same := grows.handles
    simp only [Znode.handles, map_append, map_cons] at same ⊢
    exact (perm_middle).trans (Perm.cons _ same)
  · intro a z less tiled
    have tiled' := grows.tiled a z less tiled
    exact ⟨tiled'.first, tiled'.last⟩

end Znode

/-- Where a new range starts: either at an entry, after the one before it was split, or in a gap. -/
theorem addReaderFirst_grows (wf : zp.Wf) (new) (readers : ∀ r ∈ zp.zRangeAvl, r.rOff ≤ new.rOff →
      new.rOff < r.rOff + r.rLen → r.rType = .reader) :
    let place := avlFind zfsRangeCompare new zp.zRangeAvl
    ∃ zp₁ p₁ C D, addReaderFirst zp new.rOff (place.node.or place.before.getLast?) = some (zp₁, p₁) ∧
      zp₁.zRangeAvl = C ++ D ∧ p₁.or place.after.head? = D.head? ∧ (∀ a ∈ C, a.rOff + a.rLen ≤ new.rOff) ∧
      (∀ b ∈ D, new.rOff ≤ b.rOff) ∧ zp.Grows zp₁ new.rOff new.rOff ∧
      (∀ b ∈ D, b.rType = .reader ∨ b ∈ zp.zRangeAvl) ∧
      ((∀ b ∈ D, new.rOff < b.rOff) → zp₁ = zp ∧ place = ⟨C, none, D⟩) := by
  intro place
  have ordered := wf.ordered
  rcases ordered.find new with ⟨A, r, B, tree, here, found⟩ | ⟨A, B, tree, below, above, found⟩
  · -- an entry starts there
    rw [tree] at ordered
    obtain ⟨before, fits, after⟩ := ordered.around
    have positive := fits.1
    have notPast : ¬r.stop ≤ new.rOff := by
      rw [fits.stop_eq]
      omega
    refine ⟨zp, some r, A, r :: B, ?_, tree, ?_, ?_, ?_, Znode.Grows.refl wf _, ?_, fun later => ?_⟩
    · simp [place, found, addReaderFirst, notPast, here]
    · simp
    · exact here ▸ before
    · intro b member
      rcases mem_cons.mp member with rfl | member
      · exact here.ge
      · have := after b member
        omega
    · intro b member
      exact .inr (by simp [tree, mem_cons.mp member])
    · have := later r mem_cons_self
      omega
  · rcases eq_nil_or_concat A with rfl | ⟨A', r, rfl⟩
    · refine ⟨zp, none, [], B, ?_, tree, ?_, by simp, fun b member => (above b member).le,
        Znode.Grows.refl wf _, fun b member => .inr (by simp [tree, member]), fun _ => ⟨rfl, found⟩⟩
      · simp [place, found, addReaderFirst]
      · simp [place, found]
    rw [concat_eq_append] at tree found below
    have tree' : zp.zRangeAvl = A' ++ r :: B := by simp [tree]
    rw [tree'] at ordered
    obtain ⟨before, fits, after⟩ := ordered.around
    have start := below r (by simp)
    by_cases past : r.rOff + r.rLen ≤ new.rOff
    · refine ⟨zp, none, A' ++ [r], B, ?_, tree, ?_, ?_, fun b member => (above b member).le,
        Znode.Grows.refl wf _, fun b member => .inr (by simp [tree, member]), fun _ => ⟨rfl, found⟩⟩
      · simp [place, found, addReaderFirst, fits.stop_eq, past]
      · simp [place, found]
      · intro a member
        rcases mem_append.mp member with member | member
        · have := before a member
          omega
        · rwa [mem_singleton.mp member]
    · -- the entry before reaches across
      have reader := readers r (by simp [tree']) start.le (by omega)
      obtain ⟨zp₁, front, rear, result, tree₁, off, len, _, _, rearOff, _, rearType, _, grows⟩ :=
        zfsRangeSplit_grows wf tree' reader start (by omega)
      have ordered₁ := (grows 0).wf.ordered
      rw [tree₁] at ordered₁
      refine ⟨zp₁, some rear, A' ++ [front], rear :: B, ?_, by simp [tree₁], by simp, ?_, ?_, grows _, ?_, ?_⟩
      · have notStart : r.rOff ≠ new.rOff := by omega
        simp [place, found, addReaderFirst, fits.stop_eq, past, notStart, result, tree₁, avlNext_entry ordered₁ rfl]
      · intro a member
        rcases mem_append.mp member with member | member
        · have := before a member
          omega
        · rw [mem_singleton.mp member, off, len]
          omega
      · intro b member
        rcases mem_cons.mp member with rfl | member
        · exact rearOff.ge
        · exact (above b member).le
      · intro b member
        rcases mem_cons.mp member with rfl | member
        · exact .inl rearType
        · exact .inr (by simp [tree', member])
      · intro later
        have := later rear mem_cons_self
        omega

/-- `zfs_range_add_reader` among entries of which none that overlaps is a writer's. -/
theorem zfsRangeAddReader_locks (wf : zp.Wf) (new : Rl) (fits : new.Fits) (type : new.rType = .reader)
    (original : new.rProxy = false) (one : new.rCnt = 1) (newId : new.id = zp.fresh)
    (readers : ∀ r ∈ zp.zRangeAvl, r.rOff < new.rOff + new.rLen → new.rOff < r.rOff + r.rLen → r.rType = .reader) :
    let place := avlFind zfsRangeCompare new zp.zRangeAvl
    ∃ zp' rl, zfsRangeAddReader zp.alloc new (place.node.or place.before.getLast?) place = some (.granted zp' rl) ∧
      rl.grant = new.grant ∧ zp.Locks zp' new.grant := by
  intro place
  have positive := fits.1
  obtain ⟨zp₁, p₁, C, D, first, tree₁, next, before, after, grows₁, origin, untouched⟩ :=
    addReaderFirst_grows wf.alloc new fun r member start reach => readers r member (by omega) reach
  change addReaderFirst zp.alloc new.rOff (place.node.or place.before.getLast?) = _ at first
  change p₁.or place.after.head? = _ at next
  have placed : (∀ b ∈ D, new.rOff + new.rLen ≤ b.rOff) → ∃ zp' rl,
      (avlInsert place new).bind (fun tree => some (Attempt.granted { zp₁ with zRangeAvl := tree } new)) =
        some (.granted zp' rl) ∧ rl.grant = new.grant ∧ zp.Locks zp' new.grant := by
    intro beyond
    obtain ⟨rfl, found⟩ := untouched fun b member => by have := beyond b member; omega
    refine ⟨_, new, ?_, rfl, wf.insert tree₁ new fits (.alone type original one) original newId before beyond⟩
    rw [show place = _ from found]
    rfl
  rw [zfsRangeAddReader]
  simp only [first, Option.bind_eq_bind, Option.bind_some, next, fits.stop_eq]
  cases D with
  | nil => exact placed (forall_mem_nil _)
  | cons head rest =>
    have sorted := grows₁.wf.ordered
    rw [tree₁] at sorted
    obtain ⟨_, _, later⟩ := sorted.around
    have fromHead : ∀ b ∈ head :: rest, head.rOff ≤ b.rOff := by
      intro b member
      rcases mem_cons.mp member with rfl | member
      · exact le_rfl
      · have := later b member
        omega
    simp only [List.head?_cons]
    split_ifs with beyond
    · exact placed fun b member => beyond.trans (fromHead b member)
    · obtain ⟨zp₂, C₂, filled, tree₂, grows₂⟩ := proxyBefore_grows grows₁.wf tree₁ before
        (after head mem_cons_self)
      have sorted₂ := grows₂.wf.ordered
      rw [tree₂] at sorted₂
      have allReaders : ∀ b ∈ head :: rest, b.rOff < new.rOff + new.rLen → b.rType = .reader := by
        intro b member start
        rcases origin b member with reader | old
        · exact reader
        · have := after b member
          have := (wf.ordered.fits b old).1
          exact readers b old start (by omega)
      obtain ⟨zp₃, looped, grows₃, last⟩ := addReaderLoop_grows fits.2 (head :: rest) (zp₂.zRangeAvl.length + 1) zp₂
        C₂ head.rOff none (by simp [tree₂]) grows₂.wf tree₂ (by omega) sorted₂.around.1 fromHead allReaders
        (.inr ⟨rfl, head, rest, rfl, rfl⟩)
      have grows := grows₁.trans (grows₂.trans grows₃ (after head mem_cons_self) (by omega)) le_rfl (by omega)
      have start : CutAt zp₃.zRangeAvl new.rOff := by
        refine (grows₂.trans grows₃ (after head mem_cons_self) (by omega)).cuts _ (.inl le_rfl) ?_
        rw [tree₁, cutAt_append]
        refine ⟨fun a member => ?_, fun b member => ?_⟩
        · have := before a member
          omega
        · have := after b member
          omega
      refine ⟨{ zp₃ with shared := { new with rCnt := 0 } :: zp₃.shared }, { new with rCnt := 0 }, ?_, rfl, ?_⟩
      · rw [filled, Option.bind_some, ← List.head?_cons (l := rest), looped]
        rfl
      · exact grows.share wf newId fits type original start last

end MacZfs.Rlock
