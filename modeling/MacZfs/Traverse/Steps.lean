import MacZfs.Traverse.Stages

/-!
# The steps of a traversal

Each call of `traverse_more` takes the traversal to a later stage, or to the end, or the callback has asked to be
called again.
-/

namespace MacZfs.Traverse

open Preorder

inductive Dataset.Outcome {disk : Disk} (ds : Dataset disk) (mintxg maxtxg : ℕ) (advance : Advance) (again : ℕ → Bool)
    (stage : Stage) (th : Handle) : Rc → Zseg → Handle → Prop
  | goes (stage' : Stage) (th' : Handle) (at_ : ds.At mintxg stage') (later : ds.left stage' < ds.left stage)
      (progress : ds.Progress mintxg maxtxg advance stage'.Past th') :
      Outcome ds mintxg maxtxg advance again stage th .eagain (ds.seg mintxg maxtxg stage') th'
  | waits (th' : Handle) (asked : again th.thCallbacks = true) (count : th'.thCallbacks = th.thCallbacks + 1)
      (progress : ds.Progress mintxg maxtxg advance stage.Past th') :
      Outcome ds mintxg maxtxg advance again stage th .eagain (ds.seg mintxg maxtxg stage) th'
  | ends (zseg : Zseg) (th' : Handle) (progress : ds.Progress mintxg maxtxg advance (fun _ => True) th') :
      Outcome ds mintxg maxtxg advance again stage th .erange zseg th'

inductive Dataset.Round {disk : Disk} (ds : Dataset disk) (mintxg maxtxg : ℕ) (advance : Advance) (again : ℕ → Bool)
    (o : ℕ) (dn : DnodePhys) (l b : ℕ) (th : Handle) : Option Rc × Zseg × Handle → Prop
  | stops (rc : Rc) (zseg : Zseg) (th' : Handle)
      (outcome : ds.Outcome mintxg maxtxg advance again (.block o dn l b) th rc zseg th') :
      Round ds mintxg maxtxg advance again o dn l b th (some rc, zseg, th')
  | continues (n d : ℕ) (th' : Handle) (at_ : ds.At mintxg (.block o dn n d))
      (later : ds.left (.block o dn n d) < ds.left (.block o dn l b))
      (progress : ds.Progress mintxg maxtxg advance (Stage.block o dn n d).Past th') :
      Round ds mintxg maxtxg advance again o dn l b th (none, ds.seg mintxg maxtxg (.block o dn n d), th')

namespace Dataset

variable {disk : Disk} {ds : Dataset disk} {mintxg maxtxg o l b : ℕ} {holes : Bool} {dn : DnodePhys} {e : Finished}
  {advance : Advance} {th th' : Handle} {bp : Blkptr} {stage : Stage} (again wants : ℕ → Bool)

theorem Visit.lt_room (visit : ds.Visit mintxg maxtxg holes e) : e.bookmark.zbObject < ds.room := by
  cases visit with
  | osphys => exact Nat.mul_pos (Nat.succ_pos _) (by decide)
  | block o dn l b bp dnode visited old => exact dnode.lt_room

theorem bookmark_objset (stage) : (ds.bookmark stage).zbObjset = ds.objset := by
  cases stage <;> rfl

/-- `advance_object` to an object that what comes before was finished of. -/
theorem advanceObject_spec (th) (from_ stage : Stage)
    (progress : ds.Progress mintxg maxtxg advance (Stage.object o).Past th')
    (later : o < zbMaxobject → o ≤ ds.room ∧ ds.left (.object o) < ds.left stage) :
    ∃ rc zseg, advanceObject (ds.seg mintxg maxtxg from_) o true = (rc, zseg) ∧
      ds.Outcome mintxg maxtxg advance again stage th rc zseg th' := by
  simp only [advanceObject, if_true, seg, bookmark_objset]
  by_cases beyond : o ≥ zbMaxobject
  · have after : compareBookmark ⟨ds.objset + 1, 0, -1, 0⟩ ⟨ds.objset, zbMaxobject, 0, zbMaxblkid⟩ none true = 1 := by
      simp [compareBookmark, biased]
    rw [if_pos beyond, moved, after, if_pos (by decide)]
    refine ⟨_, _, rfl, .ends _ th' (progress.congr fun e visit => iff_of_true trivial (.inr ?_))⟩
    exact lt_of_lt_of_le visit.lt_room (le_trans ds.few beyond)
  · obtain ⟨inside, less⟩ := later (not_le.mp beyond)
    have within : (ds.seg mintxg maxtxg from_).Beyond ds.objset o := ⟨rfl, le_rfl, not_le.mp beyond⟩
    have move := @moved_within (ds.seg mintxg maxtxg from_) ⟨ds.objset, o, zbMaxlevel, 0⟩ none (Int.natCast_nonneg _) within
    rw [seg] at move
    rw [if_neg beyond, move]
    exact ⟨.eagain, _, rfl, .goes (.object o) th' ⟨inside, not_le.mp beyond⟩ less progress⟩

theorem left_next_object (dnode : ds.Dn mintxg o dn) : ds.left (.object (o + 1)) < ds.left (.block o dn l b) := by
  have := dnode.lt_room
  exact Prod.Lex.toLex_lt_toLex.mpr (.inl (by omega))

theorem left_next_block (ds : Dataset disk) (o) (inside : start dn.wshift l b ≤ dn.dnMaxblkid)
    (later : rank dn.wshift dn.maxlevel l b < rank dn.wshift dn.maxlevel n d) :
    ds.left (.block o dn n d) < ds.left (.block o dn l b) := by
  have bound : rank dn.wshift dn.maxlevel l b < (dn.dnMaxblkid + 1) * (dn.maxlevel + 1) := by
    have := Nat.mul_le_mul_right (dn.maxlevel + 1) inside
    rw [rank, Nat.add_mul]
    omega
  exact Prod.Lex.toLex_lt_toLex.mpr (.inr ⟨rfl, by omega⟩)

theorem nextObject_spec (pre : advance.pre = true) (dnode : ds.Dn mintxg o dn) (c)
    (progress : ds.Progress mintxg maxtxg advance (Stage.object (o + 1)).Past th') :
    ds.Round mintxg maxtxg advance again o dn l b th (nextObject th' (ds.seg mintxg maxtxg (.block o dn l c))) := by
  obtain ⟨rc, zseg, result, outcome⟩ := advanceObject_spec again th (.block o dn l c) (.block o dn l b) progress
    fun _ => ⟨dnode.lt_room, left_next_object dnode⟩
  have object : (ds.seg mintxg maxtxg (.block o dn l c)).segStart.zbObject = o := rfl
  rw [nextObject, progress.flags, pre, object, result]
  exact .stops rc zseg th' outcome

theorem moveOn_spec (pre : advance.pre = true) (at_ : ds.At mintxg (.block o dn l b))
    (leads : Leads disk dn mintxg advance.holes l b (nextBlock dn l c rc true))
    (progress : ds.Progress mintxg maxtxg advance (nextStage o dn (nextBlock dn l c rc true)).Past th') :
    ds.Round mintxg maxtxg advance again o dn l b th
      (moveOn wants dn rc th' (ds.seg mintxg maxtxg (.block o dn l c))) := by
  obtain ⟨dnode, front⟩ := at_
  have flag : th'.thAdvance.pre = true := by rw [progress.flags, pre]
  simp only [moveOn, advanceBlock, flag]
  have place : (ds.seg mintxg maxtxg (.block o dn l c)).segStart = ⟨ds.objset, o, l, c⟩ := rfl
  rw [place, Int.toNat_natCast]
  cases next : nextBlock dn l c rc true with
  | none =>
    rw [next] at progress
    exact nextObject_spec again pre dnode c progress
  | some there =>
    obtain ⟨n, d⟩ := there
    rw [next] at progress leads
    obtain ⟨front', later, -⟩ := leads
    have within : (ds.seg mintxg maxtxg (.block o dn l c)).Beyond ds.objset o :=
      ⟨rfl, le_rfl, lt_of_lt_of_le dnode.lt_room ds.few⟩
    have move := @moved_within (ds.seg mintxg maxtxg (.block o dn l c)) ⟨ds.objset, o, n, d⟩ (some dn)
      (Int.natCast_nonneg n) within
    simp only [move, reduceCtorEq, if_false]
    have less := left_next_block ds o front.inside later
    by_cases wanted : wants th'.asked
    · rw [if_pos wanted]
      exact .stops _ _ _ (.goes (.block o dn n d) _ ⟨dnode, front'⟩ less (progress.asks _))
    · rw [if_neg wanted]
      exact .continues n d _ ⟨dnode, front'⟩ less (progress.asks _)

section

variable (progress : ds.Progress mintxg maxtxg advance (Stage.block o dn l b).Past th) (dnode : ds.Dn mintxg o dn)

include progress dnode

theorem Progress.skip (low : l ≤ dn.maxlevel) (leads : Leads disk dn mintxg advance.holes l b next)
    (none : ∀ bp, dn.Visited disk mintxg advance.holes l b bp → ¬bp.blkBirth < maxtxg) :
    ds.Progress mintxg maxtxg advance (nextStage o dn next).Past th := by
  refine progress.congr fun e visit => (past_next dnode leads visit).trans (or_iff_left ?_)
  rintro ⟨block, object, same⟩
  obtain ⟨bp, -, visited, old⟩ := visit.here dnode low block object same
  exact none bp visited old

theorem Progress.visit (leads : Leads disk dn mintxg advance.holes l b next)
    (visited : dn.Visited disk mintxg advance.holes l b bp) (old : bp.blkBirth < maxtxg) :
    ds.Progress mintxg maxtxg advance (nextStage o dn next).Past
      { th with finished := ⟨⟨ds.objset, o, l, b⟩, bp, dn⟩ :: th.finished } := by
  have finish := progress.finish (.block o dn l b bp dnode visited old) fun e' visit' before =>
    compare_past dnode visited visit' before
  refine finish.congr fun e visit => (past_next dnode leads visit).trans (or_congr_right ⟨?_, ?_⟩)
  · rintro ⟨block, object, same⟩
    obtain ⟨bp', rfl, visited', -⟩ := visit.here dnode visited.low block object same
    rw [Option.some.inj (visited.at_.symm.trans visited'.at_)]
  · rintro rfl
    exact ⟨not_lt.mpr (Int.natCast_nonneg l), rfl, by rw [Int.toNat_natCast]⟩

end

theorem traverseBlock_spec (pre : advance.pre = true) (at_ : ds.At mintxg (.block o dn l b))
    (progress : ds.Progress mintxg maxtxg advance (Stage.block o dn l b).Past th) :
    ds.Round mintxg maxtxg advance again o dn l b th
      (traverseBlock disk again wants dn th (ds.seg mintxg maxtxg (.block o dn l b))) := by
  have ⟨dnode, front⟩ := at_
  have flag : (th.thAdvance.holes && Depth.dn == .dn) = advance.holes := by simp [progress.flags]
  rcases @findBlock_spec disk th .dn dn progress.coherent dnode.sane l (ds.seg mintxg maxtxg (.block o dn l b)) rfl
    front.low with ⟨beyond, result⟩ | ⟨m, c, rc, th₁, result, found⟩
  · rw [traverseBlock, result]
    refine nextObject_spec again pre dnode b (progress.skip dnode front.low (leads_beyond beyond front.low) fun bp visited => ?_)
    exact absurd (DnodePhys.up_lt_nblkptr front.low visited.at_) (not_lt.mpr beyond)
  · rw [flag] at found
    obtain rfl := found.at_.level_eq front.opened
    have progress₁ : ds.Progress mintxg maxtxg advance (Stage.block o dn m b).Past th₁ :=
      progress.of_same found.coherent found.same
    have seg : ({ ds.seg mintxg maxtxg (.block o dn m b) with segStart :=
        { (ds.seg mintxg maxtxg (.block o dn m b)).segStart with zbLevel := (m : ℤ), zbBlkid := c } } : Zseg) =
          ds.seg mintxg maxtxg (.block o dn m c) := rfl
    rw [seg] at result
    rw [traverseBlock, result]
    by_cases ok : rc = .ok
    · subst ok
      obtain ⟨at_c, bp, here, want, -⟩ := found.at_.found rfl
      obtain rfl : c = b := at_c.trans up_self
      have visited : dn.Visited disk mintxg advance.holes m c bp := ⟨front.low, front.opened, here, want, front.inside⟩
      have leads := front.leads dnode.sane visited
      have holds : (th₁.thCache .dn m).Holds ⟨ds.objset, o, m, c⟩ bp dn := found.cached rfl bp here
      have level : (ds.seg mintxg maxtxg (.block o dn m c)).segStart.zbLevel.toNat = m := Int.toNat_natCast m
      have maxtxg_eq : (ds.seg mintxg maxtxg (.block o dn m c)).segMaxtxg = maxtxg := rfl
      simp only [reduceCtorEq, if_false, if_true, true_and, level, holds.blkptr, traverseCallback, maxtxg_eq]
      by_cases new : bp.blkBirth ≥ maxtxg
      · simp only [if_pos new, ne_eq, not_true_eq_false, if_false]
        exact moveOn_spec again wants pre at_ leads (progress₁.skip dnode front.low leads fun bp' visited' => by
          rw [← Option.some.inj (here.symm.trans visited'.at_)]
          exact not_lt.mpr new)
      · simp only [if_neg new]
        by_cases asks : again th₁.thCallbacks
        · simp only [if_pos asks, ne_eq, reduceCtorEq, not_false_eq_true, if_true]
          have calls := found.same.callbacks
          exact .stops _ _ _ (.waits _ (calls ▸ asks) (congrArg (· + 1) calls) (progress₁.called _))
        · simp only [if_neg asks, ne_eq, not_true_eq_false, if_false, holds.bookmark, holds.dnode]
          exact moveOn_spec again wants pre at_ leads ((progress₁.called (th₁.thCallbacks + 1)).visit dnode leads visited (not_le.mp new))
    · obtain ⟨rfl, le, aside, none⟩ := found.at_.passed ok
      rw [up_self] at le aside none
      obtain ⟨leads, unvisited⟩ := front.passed dnode.sane le aside none
      exact moveOn_spec again wants pre at_ leads (progress₁.skip dnode front.low leads fun bp visited => absurd visited (unvisited bp))

variable {again} in
theorem Outcome.after
    (outcome : ds.Outcome mintxg maxtxg advance again stage' th₁ rc zseg th') (at_ : ds.At mintxg stage')
    (later : ds.left stage' < ds.left stage) : ds.Outcome mintxg maxtxg advance again stage th rc zseg th' := by
  cases outcome with
  | goes stage'' _ at' later' progress => exact .goes stage'' th' at' (later'.trans later) progress
  | waits _ asked count progress => exact .goes stage' th' at_ later progress
  | ends _ _ progress => exact .ends zseg th' progress

theorem traverseBlocks_spec (pre : advance.pre = true) (at_ : ds.At mintxg (.block o dn l b))
    (progress : ds.Progress mintxg maxtxg advance (Stage.block o dn l b).Past th) (worklimit : ℕ) :
    ∃ rc zseg th', traverseBlocks disk again wants dn (worklimit + 1) th (ds.seg mintxg maxtxg (.block o dn l b)) =
      (rc, zseg, th') ∧ ds.Outcome mintxg maxtxg advance again (.block o dn l b) th rc zseg th' := by
  induction worklimit generalizing th l b
  all_goals
    have round := traverseBlock_spec again wants pre at_ progress
    rw [traverseBlocks]
    generalize traverseBlock disk again wants dn th (ds.seg mintxg maxtxg (.block o dn l b)) = result at round ⊢
  case zero =>
    cases round with
    | stops rc zseg th' outcome => exact ⟨rc, zseg, th', rfl, outcome⟩
    | continues n d th' at' later progress' => exact ⟨_, _, th', rfl, .goes _ th' at' later progress'⟩
  case succ worklimit ih =>
    cases round with
    | stops rc zseg th' outcome => exact ⟨rc, zseg, th', rfl, outcome⟩
    | continues n d th₁ at' later progress' =>
      obtain ⟨rc, zseg, th', rest, outcome⟩ := ih at' progress'
      exact ⟨rc, zseg, th', rest, outcome.after at' later⟩

end Dataset

end MacZfs.Traverse
