import MacZfs.Label.Crash
import MacZfs.Lib.Runs

/-!
# The ring of uberblocks

The slot of an uberblock is its txg modulo the number of slots of the vdev. A txg in which nothing
changes writes no uberblock but still counts, so the newest uberblock on a disk is safe from the next
write unless the number of txgs in between is a multiple of the number of slots.
-/

namespace MacZfs.Label

open Runs WriteCache

variable {κ : Type}

/-- The disks of a pool, and `ub_txg` of the uberblock in memory. -/
structure Ring (κ : Type) where
  disk : Disk κ
  ubTxg : ℕ

/-- A call of `vdev_config_sync`, with whatever changed in the txg and with a crash anywhere in it, or nowhere; and
    opening the pool, from any of its vdevs. -/
inductive RingStep (count : ℕ → ℕ) : Ring κ → Ring κ → Prop
  | sync (ring : Ring κ) (spa : Spa κ) (uvd : Vdev) (txg : ℕ) (disk' : Disk κ)
      (current : spa.spaUberblock.ubTxg = ring.ubTxg) (forward : ring.ubTxg ≤ txg)
      (sizes : ∀ leaf ∈ uvd.leaves, vdevUberblockCount leaf = count leaf.vdevGuid)
      (crash : Crash Loc.guid ring.disk (vdevConfigSync spa uvd txg).events disk') : RingStep count ring ⟨disk', txg⟩
  | reopen (ring : Ring κ) (order : List Loc) : RingStep count ring ⟨ring.disk, (vdevUberblockLoad ring.disk order).ubTxg⟩

/-- Runs of a pool whose vdevs have the given numbers of slots, from labels as `vdev_label_init` writes them: with
    uberblocks of txg 0. -/
def ringSystem (κ : Type) (count : ℕ → ℕ) : System (Ring κ) where
  init := fun ring => ∀ loc ub, ring.disk loc = .uberblock ub → ub.ubTxg = 0
  step := RingStep count

/-- An uberblock is on a vdev, in slot `n` of one of the labels. -/
def OnVdev (disk : Disk κ) (guid n : ℕ) (ub : Uberblock) : Prop := ∃ l, disk (.uber guid l n) = .uberblock ub

structure NewestOnVdev (disk : Disk κ) (guid n : ℕ) (ub : Uberblock) : Prop where
  there : OnVdev disk guid n ub
  synced : ub.ubTxg ≠ 0
  newest : ∀ n' ub', OnVdev disk guid n' ub' → ub'.ubTxg ≤ ub.ubTxg

variable {spa : Spa κ} {uvd : Vdev} {txg : ℕ} {count : ℕ → ℕ} {ring : Ring κ}

theorem syncUberblock_txg (forward : spa.spaUberblock.ubTxg ≤ txg) : (syncUberblock spa txg).ubTxg = txg := by
  rw [syncUberblock]
  split
  · rfl
  · exact forward.antisymm (Nat.not_lt.mp ‹_›)

theorem uber_written {guid n l content} (sizes : ∀ leaf ∈ uvd.leaves, vdevUberblockCount leaf = count leaf.vdevGuid)
    (written : .write (.uber guid l n) content ∈ (vdevConfigSync spa uvd txg).events) :
    n = txg % count guid ∧ content = .uberblock (syncUberblock spa txg) := by
  unfold vdevConfigSync at written
  split at written
  · cases written
  · split at written
    · cases written
    · rcases (phase_of_cut List.prefix_rfl).write_mem written with even | uber | odd
      · obtain ⟨_, _, _, other, -⟩ := write_mem_evenEvents even
        cases other
      · obtain ⟨leaf, inside, -, l, same⟩ := mem_vdevUberblockSyncTree uber
        cases same
        rw [← sizes leaf inside, vdevUberblockCount_eq, Nat.and_two_pow_sub_one_eq_mod]
        exact ⟨rfl, rfl⟩
      · obtain ⟨_, _, _, other, -⟩ := write_mem_syncLabels odd
        cases other

/-- What is in a slot after a sync was there before or is the new uberblock. -/
theorem onVdev_sync {disk disk' guid n ub}
    (sizes : ∀ leaf ∈ uvd.leaves, vdevUberblockCount leaf = count leaf.vdevGuid)
    (crash : Crash Loc.guid disk (vdevConfigSync spa uvd txg).events disk') (there : OnVdev disk' guid n ub) :
    OnVdev disk guid n ub ∨ n = txg % count guid ∧ ub = syncUberblock spa txg := by
  obtain ⟨done, cut, survived⟩ := crash
  obtain ⟨l, there⟩ := there
  rcases mem_survivors (survived (.uber guid l n)) with same | written
  · exact .inl ⟨l, same ▸ there⟩
  · obtain ⟨slot, content⟩ := uber_written sizes (cut.subset written)
    rw [there] at content
    cases content
    exact .inr ⟨slot, rfl⟩

/-- Along every run, an uberblock that was synced is in the slot of its txg. -/
theorem onVdev_slot (reachable : (ringSystem κ count).Reachable ring) {guid n ub}
    (there : OnVdev ring.disk guid n ub) (synced : ub.ubTxg ≠ 0) : n = ub.ubTxg % count guid := by
  induction reachable with
  | first init =>
    obtain ⟨l, there⟩ := there
    exact absurd (init _ _ there) synced
  | next before step ih =>
    cases step with
    | sync spa uvd txg disk' current forward sizes crash =>
      cases onVdev_sync sizes crash there with
      | inl old => exact ih old
      | inr new => rw [new.1, new.2, syncUberblock_txg (current.trans_le forward)]
    | reopen order => exact ih there

/-- In every state of every run, with crashes and idle txgs, the slot that a sync overwrites is that of the newest
    uberblock on the vdev exactly if the txgs agree modulo the number of slots. It is another one if fewer txgs than there
    are slots have passed since. -/
theorem overwritten_slot (reachable : (ringSystem κ count).Reachable ring)
    (sizes : ∀ leaf ∈ uvd.leaves, vdevUberblockCount leaf = count leaf.vdevGuid) {guid n n' : ℕ} {l : Fin vdevLabels}
    {content : Content κ} (written : .write (.uber guid l n) content ∈ (vdevConfigSync spa uvd txg).events)
    {ub : Uberblock} (newest : NewestOnVdev ring.disk guid n' ub) :
    (n = n' ↔ txg ≡ ub.ubTxg [MOD count guid]) ∧ (ub.ubTxg < txg → txg < ub.ubTxg + count guid → n ≠ n') := by
  have slots : n = n' ↔ txg ≡ ub.ubTxg [MOD count guid] := by
    rw [(uber_written sizes written).1, onVdev_slot reachable newest.there newest.synced, Nat.ModEq]
  refine ⟨slots, fun later soon same => ?_⟩
  have apart := (Nat.modEq_iff_dvd' later.le).mp (slots.mp same).symm
  exact absurd (Nat.le_of_dvd (by omega) apart) (by omega)

/-! ## A long idle stretch -/

/-- A pool of one disk with 128 slots; the root block is of txg `birth`. -/
def ringSpa (ubTxg birth : ℕ) : Spa Unit where
  rootVdev := [⟨.leaf ⟨1, false, 9, 1, by decide⟩, false⟩]
  dirtyList := []
  vdevTxgList := []
  spaUberblock := ⟨uberblockMagic, 1, ubTxg, 1, 0, ⟨birth, []⟩⟩
  guidSum := 1
  freezeTxg := 1000
  now := 0
  configGenerate _ := some ()
  io _ := true

theorem ringSpa_sizes (ubTxg birth : ℕ) :
    ∀ leaf ∈ (ringSpa ubTxg birth).rvd.leaves, vdevUberblockCount leaf = (fun _ => 128) leaf.vdevGuid := by
  simp [ringSpa, Spa.rvd, Vdev.leaves, Vdev.forLeaves, forChildren, vdevUberblockCount, uberblockShift]

def ringDisk : Disk Unit :=
  latest Loc.guid (fun _ => .bad) (vdevConfigSync (ringSpa 3 4) (ringSpa 3 4).rvd 4).events

/-- Txg 4 was synced, and nothing changed in `idle` txgs after it. -/
theorem ring_idle (idle : ℕ) : (ringSystem Unit fun _ => 128).Reachable ⟨ringDisk, 4 + idle⟩ := by
  induction idle with
  | zero =>
    have first : (ringSystem Unit fun _ => 128).Reachable ⟨fun _ => .bad, 3⟩ := .first (by simp [ringSystem])
    exact first.next (.sync _ (ringSpa 3 4) _ 4 _ rfl (by decide) (ringSpa_sizes 3 4) (crash_latest _ _))
  | succ idle ih =>
    refine ih.next (.sync _ (ringSpa (4 + idle) 4) (ringSpa 3 4).rvd _ _ rfl (Nat.le_succ _) (ringSpa_sizes 3 4) ?_)
    refine ⟨[], List.nil_prefix, fun loc => List.mem_singleton.mpr rfl⟩

theorem ringDisk_newest : NewestOnVdev ringDisk 1 4 (syncUberblock (ringSpa 3 4) 4) where
  there := ⟨0, rfl⟩
  synced := by decide
  newest n' ub' there := by
    rcases @onVdev_sync _ _ _ _ (fun _ => 128) _ _ _ _ _ (ringSpa_sizes 3 4) (crash_latest _ _) there with ⟨_, old⟩ | new
    · cases old
    · exact new.2 ▸ le_rfl

/-- After 127 idle txgs the sync of txg 132 overwrites the newest uberblock. -/
theorem overwritten_slot_idle : (ringSystem Unit fun _ => 128).Reachable ⟨ringDisk, 131⟩ ∧
    NewestOnVdev ringDisk 1 4 (syncUberblock (ringSpa 3 4) 4) ∧
    .write (.uber 1 0 4) (.uberblock (syncUberblock (ringSpa 131 132) 132)) ∈
      (vdevConfigSync (ringSpa 131 132) (ringSpa 131 132).rvd 132).events :=
  ⟨ring_idle 127, ringDisk_newest, List.mem_of_mem_head? rfl⟩

/-- One txg earlier it does not. -/
theorem overwritten_slot_soon : .write (.uber 1 0 3) (.uberblock (syncUberblock (ringSpa 130 131) 131)) ∈
    (vdevConfigSync (ringSpa 130 131) (ringSpa 130 131).rvd 131).events ∧ (3 = 4 ↔ 131 ≡ 4 [MOD 128]) := by
  have written : .write (.uber 1 0 3) (.uberblock (syncUberblock (ringSpa 130 131) 131)) ∈
      (vdevConfigSync (ringSpa 130 131) (ringSpa 130 131).rvd 131).events := List.mem_of_mem_head? rfl
  exact ⟨written, (overwritten_slot (ring_idle 126) (ringSpa_sizes 130 131) written ringDisk_newest).1⟩

end MacZfs.Label
