import MacZfs.Traverse.Segment

/-!
# Whole traversals

A traversal of a dataset, driven by calls of `traverse_more`, visits each block that was born in the interval and
the holes next to blocks that it reads, each once and in the order of the bookmarks. It ends unless the callback
asks to be called again forever.
-/

namespace MacZfs.Traverse

open Preorder DnodePhys

namespace Dataset

variable {disk : Disk} (ds : Dataset disk) {mintxg maxtxg rounds : ℕ} {advance : Advance} {th : Handle}
  {stage : Stage} {e : Finished}

def Dnode (o : ℕ) (dn : DnodePhys) : Prop := if o = 0 then dn = ds.mdn else Allocated disk ds.mdn o dn

/-- What a block pointer is in was born after `mintxg`: the indirect block, or the dnode block. The meta-dnode is
    looked at in any case. -/
def Held (mintxg o : ℕ) (dn : DnodePhys) (l b : ℕ) : Prop :=
  if l < dn.maxlevel then dn.Inner disk mintxg (l + 1) (b / 2 ^ dn.wshift)
  else o ≠ 0 → ds.mdn.Inner disk mintxg 0 (o / dnodesPerBlock)

inductive Due (mintxg maxtxg : ℕ) (holes : Bool) : Finished → Prop
  | osphys (young : mintxg < ds.dsp.dsBp.blkBirth) (old : ds.dsp.dsBp.blkBirth < maxtxg) :
      Due mintxg maxtxg holes ⟨⟨ds.objset, 0, -1, 0⟩, ds.dsp.dsBp, ds.mdn⟩
  | block (o : ℕ) (dn : DnodePhys) (l b : ℕ) (bp : Blkptr) (dnode : ds.Dnode o dn) (low : l ≤ dn.maxlevel)
      (at_ : dn.ptr disk l b = some bp) (young : mintxg < bp.blkBirth) (old : bp.blkBirth < maxtxg) :
      Due mintxg maxtxg holes ⟨⟨ds.objset, o, l, b⟩, bp, dn⟩
  | hole (o : ℕ) (dn : DnodePhys) (l b : ℕ) (bp : Blkptr) (dnode : ds.Dnode o dn) (low : l ≤ dn.maxlevel)
      (at_ : dn.ptr disk l b = some bp) (hole : bp.isHole = true) (asked : holes = true)
      (inside : start dn.wshift l b ≤ dn.dnMaxblkid) (held : ds.Held mintxg o dn l b) :
      Due mintxg maxtxg holes ⟨⟨ds.objset, o, l, b⟩, bp, dn⟩

variable {ds}

variable {o : ℕ} {dn : DnodePhys}

theorem Dnode.sane (dnode : ds.Dnode o dn) : dn.Sane disk := by
  unfold Dnode at dnode
  split_ifs at dnode with zero
  · exact dnode ▸ ds.sane
  · exact ds.dnodes o dn dnode

theorem Dn.dnode (dnode : ds.Dn mintxg o dn) : ds.Dnode o dn := by
  unfold Dn at dnode
  unfold Dnode
  split_ifs at dnode ⊢ with zero
  · exact dnode
  · exact dnode.allocated

theorem Dnode.of_held (dnode : ds.Dnode o dn)
    (held : o ≠ 0 → ds.mdn.Inner disk mintxg 0 (o / dnodesPerBlock)) : ds.Dn mintxg o dn := by
  unfold Dnode at dnode
  unfold Dn
  split_ifs at dnode ⊢ with zero
  · exact dnode
  · obtain ⟨bp, at_, young⟩ := held zero
    obtain ⟨bp', at', whole, rest⟩ := dnode
    obtain rfl := Option.some.inj (at_.symm.trans at')
    exact ⟨bp, ds.sane.visited_of_young (Nat.zero_le _) at_ young, rest⟩

theorem Dnode.of_young (dnode : ds.Dnode o dn) (low : l ≤ dn.maxlevel)
    (at_ : dn.ptr disk l b = some bp) (young : mintxg < bp.blkBirth) : ds.Dn mintxg o dn := by
  refine dnode.of_held fun object => ?_
  have allocated : Allocated disk ds.mdn o dn := by rwa [Dnode, if_neg object] at dnode
  have ⟨bp₀, at₀, _⟩ := allocated
  have few := up_lt_nblkptr low at_
  have top : dn.ptr disk dn.maxlevel (up dn.wshift l b dn.maxlevel) = some (dn.dnBlkptr (up dn.wshift l b dn.maxlevel)) := by
    rw [ptr_top, if_pos few]
  have le := dnode.sane.birth_up low le_rfl at_ top
  exact ⟨bp₀, at₀, lt_of_lt_of_le young (le_trans le (ds.births o dn bp₀ _ allocated at₀ few))⟩

theorem due_iff_visit (positive : 0 < maxtxg) : ds.Due mintxg maxtxg holes e ↔ ds.Visit mintxg maxtxg holes e := by
  constructor
  · intro due
    cases due with
    | osphys young old => exact .osphys young old
    | block o dn l b bp dnode low at_ young old =>
      exact .block o dn l b bp (dnode.of_young low at_ young) (dnode.sane.visited_of_young low at_ young) old
    | hole o dn l b bp dnode low at_ hole asked inside held =>
      have want : wanted mintxg holes bp = true := by simp [wanted, hole, asked]
      have old : bp.blkBirth < maxtxg := by
        have : bp.blkBirth = 0 := by simpa [Blkptr.isHole] using hole
        omega
      unfold Held at held
      split_ifs at held with below
      · obtain ⟨bp', at', young⟩ := held
        rw [← up_succ (l := l)] at at'
        have above : dn.Visited disk mintxg holes (l + 1) _ bp' := dnode.sane.visited_of_young below at' young
        exact .block o dn l b bp (dnode.of_young below at' young) ⟨low, open_down above.opened at' young, at_, want, inside⟩ old
      · exact .block o dn l b bp (dnode.of_held held) ⟨low, fun m lt top => by omega, at_, want, inside⟩ old
  · intro visit
    cases visit with
    | osphys young old => exact .osphys young old
    | block o dn l b bp dnode visited old =>
      by_cases young : mintxg < bp.blkBirth
      · exact .block o dn l b bp dnode.dnode visited.low visited.at_ young old
      · have hole : bp.isHole = true ∧ holes = true := by simpa [wanted, young] using visited.wanted
        refine .hole o dn l b bp dnode.dnode visited.low visited.at_ hole.1 hole.2 visited.inside ?_
        unfold Held
        split_ifs with below
        · rw [← up_succ (l := l)]
          exact visited.opened (l + 1) (Nat.lt_succ_self l) below
        · intro object
          obtain ⟨bp', visited', -⟩ := (dn_object object).mp dnode
          exact ⟨bp', visited'.at_, by simpa [wanted] using visited'.wanted⟩

/-! ## Calls of `traverse_more` -/

section Calls

variable (again wants : ℕ → Bool) {mosbp : ℕ → Blkptr} (roots : ∀ n, ds.Root (mosbp n)) (pre : advance.pre = true)
  (enough : Enough rounds)

include roots pre enough in
/-- One call of `traverse_more`. -/
theorem traverseMore_spec (at_ : ds.At (ds.startTxg advance mintxg) stage)
    (progress : ds.Progress (ds.startTxg advance mintxg) maxtxg advance stage.Past th) :
    ∃ segs th', traverseMore disk again wants mosbp th rounds [ds.seg mintxg maxtxg stage] = some (.eagain, segs, th') ∧
      ((segs = [] ∧ ds.Progress (ds.startTxg advance mintxg) maxtxg advance (fun _ => True) th') ∨
      ∃ stage', segs = [ds.seg mintxg maxtxg stage'] ∧ ds.At (ds.startTxg advance mintxg) stage' ∧
        ds.Progress (ds.startTxg advance mintxg) maxtxg advance stage'.Past th' ∧
        (ds.left stage' < ds.left stage ∨
          stage' = stage ∧ again th.thCallbacks = true ∧ th'.thCallbacks = th.thCallbacks + 1)) := by
  have restarted : ds.Progress (ds.startTxg advance mintxg) maxtxg advance stage.Past
      { th with thRestarts := th.thRestarts + 1 } :=
    ⟨⟨progress.coherent.data, progress.coherent.buffer⟩, progress.flags, progress.exact_, progress.ordered⟩
  obtain ⟨rc, zseg, th', result, outcome⟩ := traverseSegment_spec again wants (roots th.thRestarts) pre enough at_ restarted
  rw [traverseMore, result]
  cases outcome with
  | goes stage' _ at' later progress' => exact ⟨_, th', rfl, .inr ⟨stage', rfl, at', progress', .inl later⟩⟩
  | waits _ asked count progress' => exact ⟨_, th', rfl, .inr ⟨stage, rfl, at_, progress', .inr ⟨rfl, asked, count⟩⟩⟩
  | ends _ _ progress' => exact ⟨[], th', rfl, .inl ⟨rfl, progress'⟩⟩

include roots pre enough in
theorem traverseAll_sound (at_ : ds.At (ds.startTxg advance mintxg) stage)
    (progress : ds.Progress (ds.startTxg advance mintxg) maxtxg advance stage.Past th)
    (run : traverseAll disk again wants mosbp rounds calls th [ds.seg mintxg maxtxg stage] = some (rc, th')) :
    rc = .ok ∧ ds.Progress (ds.startTxg advance mintxg) maxtxg advance (fun _ => True) th' := by
  induction calls generalizing stage th with
  | zero => cases run
  | succ calls ih =>
    obtain ⟨segs, th₁, more, ⟨rfl, done⟩ | ⟨stage', rfl, at', progress', -⟩⟩ :=
      traverseMore_spec again wants roots pre enough at_ progress
    · rw [traverseAll, more] at run
      cases calls with
      | zero => cases run
      | succ calls =>
        cases run
        exact ⟨rfl, done⟩
    · rw [traverseAll, more] at run
      exact ih at' progress' run

include roots pre enough in
/-- A traversal ends if the callback does not ask to be called again forever. -/
theorem traverseAll_ends (fair : ∀ n, ∃ k, n ≤ k ∧ again k = false) (at_ : ds.At (ds.startTxg advance mintxg) stage)
    (progress : ds.Progress (ds.startTxg advance mintxg) maxtxg advance stage.Past th) :
    ∃ calls th', traverseAll disk again wants mosbp rounds calls th [ds.seg mintxg maxtxg stage] = some (.ok, th') := by
  generalize measure : ds.left stage = left
  induction left using WellFoundedLT.induction generalizing stage th with
  | ind left earlier =>
    -- at one stage the callback is called again at most until the next time it does not ask for it
    obtain ⟨k, later, last⟩ := fair th.thCallbacks
    obtain ⟨wait, rfl⟩ := Nat.exists_eq_add_of_le later
    clear later
    induction wait using Nat.strong_induction_on generalizing th with
    | h wait ih =>
      obtain ⟨segs, th₁, more, ⟨rfl, done⟩ | ⟨stage', rfl, at', progress', less | ⟨rfl, asked, count⟩⟩⟩ :=
        traverseMore_spec again wants roots pre enough at_ progress
      · exact ⟨2, th₁, by rw [traverseAll, more]; rfl⟩
      · obtain ⟨calls, th', run⟩ := earlier (ds.left stage') (measure ▸ less) at' progress' rfl
        exact ⟨calls + 1, th', by rw [traverseAll, more]; exact run⟩
      · have waits : wait ≠ 0 := by
          rintro rfl
          rw [add_zero, asked] at last
          cases last
        obtain ⟨calls, th', run⟩ := ih (wait - 1) (by omega) progress'
          (by rw [count, add_assoc, Nat.add_sub_cancel' (Nat.one_le_iff_ne_zero.mpr waits)]; exact last)
        exact ⟨calls + 1, th', by rw [traverseAll, more]; exact run⟩

end Calls

end Dataset

theorem compareBookmark_self (zb) (dnp : Option DnodePhys) : compareBookmark zb zb dnp true = 0 := by
  cases dnp <;> simp [compareBookmark]

theorem Ordered.nodup (ordered : Ordered finished) : (finished.map (·.bookmark)).Nodup := by
  refine List.pairwise_map.mpr (ordered.imp fun less same => ?_)
  rw [same, compareBookmark_self] at less
  exact lt_irrefl _ less

/-- A traversal in preorder finishes what is due, each block once and in the order of `compare_bookmark`, and it ends
    if the callback does not ask to be called again forever. -/
theorem traverse_finishes_due {disk : Disk} (ds : Dataset disk) (again wants : ℕ → Bool) {mosbp : ℕ → Blkptr}
    (roots : ∀ n, ds.Root (mosbp n)) {advance : Advance} (pre : advance.pre = true) {mintxg maxtxg rounds : ℕ}
    (interval : mintxg < maxtxg) (enough : Dataset.Enough rounds) :
    (∀ calls rc th, traverseAll disk again wants mosbp rounds calls (traverseInit advance)
        [traverseAddObjset advance mintxg maxtxg ds.objset] = some (rc, th) →
      rc = .ok ∧ (∀ e, e ∈ th.finished ↔ ds.Due (ds.startTxg advance mintxg) maxtxg advance.holes e) ∧
        (th.finished.map (·.bookmark)).Nodup ∧ Ordered th.finished) ∧
    ((∀ n, ∃ k, n ≤ k ∧ again k = false) → ∃ calls th, traverseAll disk again wants mosbp rounds calls
        (traverseInit advance) [traverseAddObjset advance mintxg maxtxg ds.objset] = some (.ok, th)) := by
  have first : traverseAddObjset advance mintxg maxtxg ds.objset = ds.seg mintxg maxtxg .osphys := if_pos pre
  have start : ds.Progress (ds.startTxg advance mintxg) maxtxg advance Stage.osphys.Past (traverseInit advance) :=
    ⟨traverseInit_coherent advance, rfl, fun e => iff_of_false (List.not_mem_nil) fun past => past.2, .nil⟩
  have at_ : ds.At (ds.startTxg advance mintxg) .osphys := trivial
  rw [first]
  refine ⟨fun calls rc th run => ?_, fun fair => Dataset.traverseAll_ends again wants roots pre enough fair at_ start⟩
  obtain ⟨ok, done⟩ := Dataset.traverseAll_sound again wants roots pre enough at_ start run
  refine ⟨ok, fun e => ?_, done.ordered.nodup, done.ordered⟩
  rw [done.exact_, Dataset.due_iff_visit (Nat.zero_lt_of_lt interval), and_true]

/-! ## A dataset with a hole -/

def flatDnode (type : ObjectType) (blkptrs : List Blkptr) (bonus : DsPhys) : DnodePhys where
  dnType := type
  dnIndblkshift := 14
  dnNlevels := 1
  dnNblkptr := blkptrs.length
  dnBlkptr i := blkptrs.getD i default
  dnMaxblkid := blkptrs.length - 1
  dnBonus := bonus

theorem flatDnode_sane (disk) (few : blkptrs.length ≤ 3) : (flatDnode type blkptrs bonus).Sane disk where
  levels := by simp [flatDnode]
  nblkptr := le_trans few (by decide : 3 ≤ 2 ^ 7)
  fits := by
    simp only [flatDnode, maxlevel, wshift, Nat.sub_self, Nat.zero_mul, pow_zero, mul_one]
    omega
  inside l b bp low at_ whole := by
    obtain rfl : l = 0 := Nat.le_zero.mp low
    have lt := up_lt_nblkptr low at_
    simp only [up, flatDnode, maxlevel, Nat.sub_self, Nat.zero_mul, pow_zero, Nat.div_one] at lt
    simp only [start, flatDnode, Nat.zero_mul, pow_zero, mul_one]
    omega
  births l b bp i low pos := by
    have : l ≤ 0 := low
    omega

def sparseDisk : Disk := fun bp =>
  match bp.blkDva with
  | 1 => { (default : Contents) with osMetaDnode := flatDnode (.other 10) [⟨2, 5⟩] default }
  | 2 => { (default : Contents) with
      dnodes := fun i => if i = 7 then flatDnode .dslDataset [] ⟨⟨3, 5⟩, 0⟩ else default }
  | 3 => { (default : Contents) with osMetaDnode := flatDnode (.other 10) [⟨4, 5⟩] default }
  | 4 => { (default : Contents) with
      dnodes := fun i => if i = 1 then flatDnode (.other 19) [⟨5, 3⟩, ⟨0, 0⟩] default else default }
  | _ => default

theorem sparse_allocated {o dn} (allocated : Allocated sparseDisk (flatDnode (.other 10) [⟨4, 5⟩] default) o dn) :
    dn = flatDnode (.other 19) [⟨5, 3⟩, ⟨0, 0⟩] default ∧
      (flatDnode (.other 10) [⟨4, 5⟩] default).ptr sparseDisk 0 (o / dnodesPerBlock) = some ⟨4, 5⟩ := by
  obtain ⟨bp, at_, -, rfl, type⟩ := allocated
  have lt := up_lt_nblkptr (Nat.zero_le _) at_
  have zero : o / dnodesPerBlock = 0 := by
    simpa [up, flatDnode, maxlevel] using lt
  rw [zero] at at_ ⊢
  obtain rfl : ⟨4, 5⟩ = bp := Option.some.inj at_
  refine ⟨?_, rfl⟩
  by_cases file : o % dnodesPerBlock = 1
  · simp [sparseDisk, file]
  · simp [sparseDisk, file, default, instInhabitedDnodePhys.default, instInhabitedObjectType.default] at type

def sparseDataset : Dataset sparseDisk where
  objset := 7
  dsp := ⟨⟨3, 5⟩, 0⟩
  mdn := flatDnode (.other 10) [⟨4, 5⟩] default
  number := by decide
  whole := by decide
  metadnode := rfl
  sane := flatDnode_sane _ (by decide)
  few := by decide
  dnodes o dn allocated := by
    rw [(sparse_allocated allocated).1]
    exact flatDnode_sane _ (by decide)
  births o dn bp i allocated at_ few := by
    obtain ⟨rfl, at'⟩ := sparse_allocated allocated
    obtain rfl := Option.some.inj (at'.symm.trans at_)
    have : i < 2 := few
    interval_cases i <;> decide

theorem sparse_root : sparseDataset.Root ⟨1, 5⟩ where
  whole := by decide
  sane := flatDnode_sane _ (by decide)
  few := by decide
  dataset := ⟨flatDnode .dslDataset [] ⟨⟨3, 5⟩, 0⟩, ⟨⟨2, 5⟩, rfl, by decide, rfl, by decide⟩, rfl, rfl⟩

/-- Between two calls of the callback that ask for another one. -/
theorem traverse_finishes_due_sparse :
    ∃ calls th, traverseAll sparseDisk (fun n => n % 2 == 0) (fun _ => true) (fun _ => ⟨1, 5⟩) (2 ^ 68) calls
      (traverseInit ⟨true, true, false, true⟩) [traverseAddObjset ⟨true, true, false, true⟩ 2 10 7] = some (.ok, th) ∧
    ∀ e, e ∈ th.finished ↔ sparseDataset.Due 2 10 true e := by
  obtain ⟨sound, ends⟩ := @traverse_finishes_due _ sparseDataset (fun n => n % 2 == 0) (fun _ => true) (fun _ => ⟨1, 5⟩)
    (fun _ => sparse_root) ⟨true, true, false, true⟩ rfl 2 10 (2 ^ 68) (by decide)
    (by norm_num [Dataset.Enough, zbMaxblkid, zbMaxlevel])
  obtain ⟨calls, th, run⟩ := ends fun n => ⟨2 * n + 1, by omega, by simp [Nat.add_mod]⟩
  exact ⟨calls, th, run, (sound calls .ok th run).2.1⟩

/-- A hole of an object whose dnode block is older than `mintxg` is not visited. -/
theorem hole_of_old_dnode_not_finished :
    sparseDataset.Root ⟨1, 5⟩ ∧ sparseDataset.Dnode 1 (flatDnode (.other 19) [⟨5, 3⟩, ⟨0, 0⟩] default) ∧
    (flatDnode (.other 19) [⟨5, 3⟩, ⟨0, 0⟩] default).ptr sparseDisk 0 1 = some ⟨0, 0⟩ ∧
    (flatDnode (.other 19) [⟨5, 3⟩, ⟨0, 0⟩] default).dnMaxblkid = 1 ∧
    (traverseAll sparseDisk (fun _ => false) (fun _ => false) (fun _ => ⟨1, 5⟩) 100 100
      (traverseInit ⟨true, false, false, true⟩) [traverseAddObjset ⟨true, false, false, true⟩ 6 10 7]).map
        (fun result => (result.1, result.2.finished.map (·.bookmark))) = some (.ok, []) := by
  refine ⟨sparse_root, ?_, rfl, rfl, by decide +kernel⟩
  exact ⟨⟨4, 5⟩, rfl, rfl, rfl, by decide⟩

end MacZfs.Traverse
