import MacZfs.Cache.Trees
import MacZfs.Lib.Runs

/-!
# What reads get from the cache

A byte in the cache is the one on the device, or the one that a write has replaced which is not
completed yet. A line that a write has missed is not read any more; the reads that were waiting for it
were issued before.
-/

namespace MacZfs.Cache

open Alignment Nat List Option

variable {t : Tunables} {vd : Vdev} {vc : VdevCache} {id : ℕ}

/-! ## The specification -/

def WriteZio.Covers (zio : WriteZio) (offset : ℕ) : Prop :=
  zio.ioOffset ≤ offset ∧ offset < zio.ioOffset + zio.ioSize

def HeldSince (vd : Vdev) (zio : ReadZio) (offset : ℕ) (byte : UInt8) : Prop :=
  ∃ disk ∈ (vd.disk :: vd.past).take (vd.past.length + 1 - zio.issued), disk offset = byte

def Replaced (writes : List InFlight) (offset : ℕ) (byte : UInt8) : Prop :=
  ∃ write ∈ writes, write.zio.Covers offset ∧ ∃ before ∈ write.replaced, before offset = byte

/-- The byte may be returned to the read: the device held it since the read was issued, or it was
    replaced by a write that had taken effect and not completed when the read was issued. -/
def Right (vd : Vdev) (zio : ReadZio) (offset : ℕ) (byte : UInt8) : Prop :=
  HeldSince vd zio offset byte ∨ Replaced zio.inFlight offset byte

def Current (vd : Vdev) (offset : ℕ) (byte : UInt8) : Prop :=
  byte = vd.disk offset ∨ Replaced vd.writes offset byte

structure Vdev.Fresh (vd : Vdev) : Prop where
  offsets : vd.vc.vcOffsetTree = []
  lastused : vd.vc.vcLastusedTree = []
  past : vd.past = []
  writes : vd.writes = []

def cacheRuns (t : Tunables) : Runs.System Vdev where
  init := Vdev.Fresh
  step vd vd' := ∃ event served, exec t vd event = some (vd', served)

/-! ## Invariant -/

def CacheEntry.Valid (ve : CacheEntry) : Prop :=
  ∀ fio ∈ ve.veFillIo, fio.taken = true ∧ ve.veMissedUpdate = false

structure Waits (t : Tunables) (vd : Vdev) (ve : CacheEntry) (taken : Bool) (dio : ReadZio) : Prop where
  issued : dio.issued ≤ vd.past.length
  line : p2align dio.ioOffset (vcbs t) = ve.veOffset
  fits : p2phase dio.ioOffset (vcbs t) + dio.ioSize ≤ vcbs t
  right : taken = true → ∀ i < dio.ioSize, Right vd dio (dio.ioOffset + i) (hitData t ve dio i)

structure EntryOk (t : Tunables) (vd : Vdev) (ve : CacheEntry) : Prop where
  current : ve.Valid → ∀ phase < vcbs t, Current vd (ve.veOffset + phase) (ve.veData phase)
  waits : ∀ fio ∈ ve.veFillIo, ∀ dio ∈ fio.ioDelegateList, Waits t vd ve fio.taken dio

structure Inv (t : Tunables) (vd : Vdev) : Prop where
  wf : vd.vc.Wf t
  entries : ∀ id ∈ vd.vc.vcOffsetTree, EntryOk t vd (vd.vc.ve id)
  apart : vd.writes.Pairwise fun write write' => write.zio.overlaps write'.zio = false
  took : ∀ write ∈ vd.writes, write.replaced.isSome → ∀ offset, write.zio.Covers offset →
    vd.disk offset = write.zio.ioData (offset - write.zio.ioOffset)

/-! ## Reads -/

theorem p2align_add_p2phase (x align) : p2align x align + p2phase x align = x := Nat.sub_add_cancel and_le_left

theorem p2phase_vcbs (x) : p2phase x (vcbs t) = x % vcbs t := and_two_pow_sub_one_eq_mod x _

theorem p2align_vcbs (x) : p2align x (vcbs t) = x / vcbs t * vcbs t := by
  have := div_add_mod' x (vcbs t)
  rw [p2align, p2phase_vcbs]
  omega

theorem fits_of_not_cross {x size} (positive : 0 < size) (within : p2cross x (x + size - 1) (vcbs t) = false) :
    p2phase x (vcbs t) + size ≤ vcbs t := by
  have unit := vcbs_pos t
  have small : x ^^^ (x + size - 1) < 2 ^ t.zfsVdevCacheBshift := by
    have : ¬x ^^^ (x + size - 1) > vcbs t - 1 := by simpa [p2cross] using within
    unfold vcbs at this unit
    omega
  have sameLine : x / vcbs t = (x + size - 1) / vcbs t := by
    have zero := shiftRight_eq_zero _ _ small
    rw [shiftRight_xor_distrib, xor_eq_zero_iff, shiftRight_eq_div_pow, shiftRight_eq_div_pow] at zero
    exact zero
  have first := div_add_mod x (vcbs t)
  have last := div_add_mod (x + size - 1) (vcbs t)
  have bound := mod_lt (x + size - 1) unit
  rw [← sameLine] at last
  rw [p2phase_vcbs]
  omega

variable {offset : ℕ}

theorem Current.right (current : Current vd offset byte) (request) :
    Right vd (vd.issue request) offset byte := by
  rcases current with same | replaced
  · refine .inl ⟨vd.disk, ?_, same.symm⟩
    have : vd.past.length + 1 - (vd.issue request).issued = 1 := by
      show vd.past.length + 1 - vd.past.length = 1
      omega
    simp [this]
  · exact .inr replaced

theorem EntryOk.hit (ok : EntryOk t vd ve) (valid : ve.Valid) (request)
    (line : p2align request.ioOffset (vcbs t) = ve.veOffset)
    (fits : p2phase request.ioOffset (vcbs t) + request.ioSize ≤ vcbs t) :
    ∀ i < request.ioSize, Right vd (vd.issue request) (request.ioOffset + i) (hitData t ve (vd.issue request) i) := by
  intro i inside
  have current := ok.current valid (p2phase request.ioOffset (vcbs t) + i) (by omega)
  rw [← line, ← add_assoc, p2align_add_p2phase] at current
  exact current.right request

theorem EntryOk.like (ok : EntryOk t vd ve) (like : Like ve ve') : EntryOk t vd ve' := by
  obtain ⟨data, offset, missed, fill⟩ := like
  constructor
  · intro valid
    rw [offset, data]
    refine ok.current fun fio there => ?_
    rw [← missed]
    exact valid fio (fill ▸ there)
  · intro fio there dio member
    obtain ⟨issued, line, fits, right⟩ := ok.waits fio (fill ▸ there) dio member
    refine ⟨issued, line.trans offset.symm, fits, ?_⟩
    simpa only [hitData, data] using right

theorem EntryOk.setVc (ok : EntryOk t vd ve) (vc) : EntryOk t { vd with vc } ve :=
  ⟨ok.current, fun fio there dio member =>
    have waits := ok.waits fio there dio member
    ⟨waits.issued, waits.line, waits.fits, waits.right⟩⟩

theorem Inv.setVc (inv : Inv t vd) (wf : vc.Wf t) (entries : ∀ id ∈ vc.vcOffsetTree, EntryOk t vd (vc.ve id)) :
    Inv t { vd with vc } :=
  ⟨wf, fun id member => (entries id member).setVc vc, inv.apart, inv.took⟩

theorem Inv.fewer (inv : Inv t vd) (wf : vc.Wf t) (fewer : Fewer vd.vc vc) : Inv t { vd with vc } :=
  inv.setVc wf fun id member => (inv.entries id (fewer id member).1).like (fewer id member).2

theorem Inv.modify (inv : Inv t vd)
    (sameOffset : (f (vd.vc.ve id)).veOffset = (vd.vc.ve id).veOffset) (ok : EntryOk t vd (f (vd.vc.ve id))) :
    Inv t { vd with vc := vd.vc.modify id f } := by
  refine inv.setVc (inv.wf.modify sameOffset) fun i member => ?_
  rw [modify_ve]
  split
  · exact ok
  · exact inv.entries i member

variable {fio : FillZio}

section

variable (inv : Inv t vd) (request : Request)

include inv request

theorem Inv.join (member : id ∈ vd.vc.vcOffsetTree)
    (fill : (vd.vc.ve id).veFillIo = some fio) (unmissed : (vd.vc.ve id).veMissedUpdate = false)
    (line : p2align request.ioOffset (vcbs t) = (vd.vc.ve id).veOffset)
    (fits : p2phase request.ioOffset (vcbs t) + request.ioSize ≤ vcbs t) :
    Inv t { vd with vc := vd.vc.modify id fun ve =>
      { ve with veFillIo := some { fio with ioDelegateList := vd.issue request :: fio.ioDelegateList } } } := by
  have ok := inv.entries id member
  refine inv.modify rfl ⟨fun valid => ok.current ?_, ?_⟩
  · intro fio' there
    rw [fill, mem_some] at there
    subst there
    exact valid { fio with ioDelegateList := vd.issue request :: fio.ioDelegateList } rfl
  · rintro fio' ⟨⟩ dio waiting
    rcases mem_cons.mp waiting with rfl | before
    · refine ⟨le_rfl, line, fits, fun taken => ok.hit ?_ request line fits⟩
      intro fio' there
      rw [fill, mem_some] at there
      subst there
      exact ⟨taken, unmissed⟩
    · obtain ⟨issued, line, fits, right⟩ := ok.waits fio fill dio before
      exact ⟨issued, line, fits, right⟩

theorem Inv.allocate {lbolt buffer} (missing : vd.vc.find (p2align request.ioOffset (vcbs t)) = none)
    (fits : p2phase request.ioOffset (vcbs t) + request.ioSize ≤ vcbs t)
    (allocated : vdevCacheAllocate t vd.vc (vd.issue request) lbolt buffer ⟨[vd.issue request], false⟩ = some vc) :
    Inv t { vd with vc } := by
  unfold vdevCacheAllocate at allocated
  split at allocated
  · cases allocated
  · obtain ⟨roomy, room, rfl⟩ := map_eq_some_iff.mp allocated
    obtain ⟨wf, fewer⟩ := makeRoom_spec inv.wf room
    have absent : ∀ id ∈ roomy.vcOffsetTree, (roomy.ve id).veOffset ≠ p2align request.ioOffset (vcbs t) := by
      intro id member
      rw [(fewer id member).2.offset]
      exact find_none missing id (fewer id member).1
    obtain ⟨wf', entries⟩ := @addEntry_spec t roomy (p2align (vd.issue request).ioOffset (vcbs t)) lbolt buffer
      ⟨[vd.issue request], false⟩ wf (p2align_vcbs _ ▸ dvd_mul_left _ _) absent
    refine inv.setVc wf' fun id member => ?_
    rcases entries id member with ⟨before, same⟩ | new
    · rw [same]
      exact (inv.entries id (fewer id before).1).like (fewer id before).2
    · rw [new]
      refine ⟨fun valid => ?_, ?_⟩
      · exact absurd (valid _ rfl).1 (by simp)
      · rintro fio ⟨⟩ dio waiting
        rw [mem_singleton.mp waiting]
        exact ⟨le_rfl, rfl, fits, by simp⟩

theorem vdevCacheRead_spec (lbolt) (buffer) :
    Inv t { vd with vc := (vdevCacheRead t vd.vc (vd.issue request) lbolt buffer).1 } ∧
      ∀ served, (vdevCacheRead t vd.vc (vd.issue request) lbolt buffer).2 = .hit served →
        ∀ i < served.zio.ioSize, Right vd served.zio (served.zio.ioOffset + i) (served.data i) := by
  unfold vdevCacheRead
  split
  · exact ⟨inv, by simp⟩
  · split
    · exact ⟨inv, by simp⟩
    · split
      · exact ⟨inv, by simp⟩
      · rename_i within
        have fits : p2phase request.ioOffset (vcbs t) + request.ioSize ≤ vcbs t :=
          fits_of_not_cross request.positive (Bool.eq_false_iff.mpr within)
        split
        · rename_i id found
          obtain ⟨member, line⟩ := find_some found
          split
          · exact ⟨inv, by simp⟩
          · rename_i unmissed
            split
            · rename_i fio fill
              exact ⟨inv.join request member fill (by simpa using unmissed) line.symm fits, by simp⟩
            · rename_i filled
              refine ⟨inv.fewer (vdevCacheHit_wf inv.wf member lbolt) (vdevCacheHit_fewer _ _ _), ?_⟩
              rintro served ⟨⟩
              exact (inv.entries id member).hit (by simp [CacheEntry.Valid, filled]) request line.symm fits
        · rename_i missing
          split
          · split
            · exact ⟨inv, by simp⟩
            · rename_i allocated
              exact ⟨inv.allocate request missing fits allocated, by simp⟩
          · exact ⟨inv, by simp⟩

end

/-! ## Fills -/

theorem fillIo_some (filling : vd.fillIo id = some fio) :
    id ∈ vd.vc.vcOffsetTree ∧ (vd.vc.ve id).veFillIo = some fio := by
  unfold Vdev.fillIo at filling
  split at filling
  · exact ⟨by assumption, filling⟩
  · cases filling

theorem Inv.fillTake (inv : Inv t vd) (filling : vd.fillIo id = some fio) :
    Inv t { vd with vc := vd.vc.modify id fun ve =>
      { ve with veData := fun phase => vd.disk (ve.veOffset + phase), veFillIo := some { fio with taken := true } } } := by
  obtain ⟨member, fill⟩ := fillIo_some filling
  refine inv.modify rfl ⟨fun _ phase _ => .inl rfl, ?_⟩
  rintro fio' ⟨⟩ dio waiting
  obtain ⟨issued, line, fits, -⟩ := (inv.entries id member).waits fio fill dio waiting
  refine ⟨issued, line, fits, fun _ i inside => .inl ⟨vd.disk, ?_, ?_⟩⟩
  · have : vd.past.length + 1 - dio.issued = (vd.past.length - dio.issued) + 1 := by omega
    simp [this]
  · show vd.disk (dio.ioOffset + i) = vd.disk ((vd.vc.ve id).veOffset + (p2phase dio.ioOffset (vcbs t) + i))
    rw [← line, ← add_assoc, p2align_add_p2phase]

theorem vdevCacheFill_spec (inv : Inv t vd) (filling : vd.fillIo id = some fio) (error : Bool)
    (lbolt) (taken : error = true ∨ fio.taken = true) :
    Inv t { vd with vc := (vdevCacheFill t vd.vc id fio error lbolt).1 } ∧
      ∀ served ∈ (vdevCacheFill t vd.vc id fio error lbolt).2, ∀ i < served.zio.ioSize,
        Right vd served.zio (served.zio.ioOffset + i) (served.data i) := by
  obtain ⟨member, fill⟩ := fillIo_some filling
  have ok := inv.entries id member
  have unfilled : Like { vd.vc.ve id with veFillIo := none }
      ((vd.vc.modify id fun ve => { ve with veFillIo := none }).ve id) := by
    rw [modify_ve, if_pos rfl]
    exact .rfl
  obtain ⟨wf, fewer, tree⟩ := @foldl_hit t (vd.vc.modify id fun ve => { ve with veFillIo := none }) id
    fio.ioDelegateList lbolt (inv.wf.modify rfl) member
  have others : ∀ i ∈ vd.vc.vcOffsetTree, i ≠ id → Like (vd.vc.ve i)
      ((fio.ioDelegateList.foldl (fun vc _ => vdevCacheHit vc id lbolt)
        (vd.vc.modify id fun ve => { ve with veFillIo := none })).ve i) := by
    intro i inside different
    have like := (fewer i (tree ▸ inside)).2
    rwa [modify_ve, if_neg different] at like
  have this := unfilled.trans (fewer id (tree ▸ member)).2
  constructor
  · unfold vdevCacheFill
    dsimp only
    split
    · -- the entry goes
      refine inv.setVc (vdevCacheEvict_wf wf id) fun i inside => ?_
      obtain ⟨different, before⟩ := (Nodup.mem_erase_iff wf.nodup).mp inside
      have before : i ∈ vd.vc.vcOffsetTree := tree ▸ before
      exact (inv.entries i before).like (others i before different)
    · rename_i stays
      simp only [Bool.or_eq_true, not_or, Bool.not_eq_true] at stays
      have isTaken := taken.resolve_left (by simp [stays.1])
      refine inv.setVc wf fun i inside => ?_
      have before : i ∈ vd.vc.vcOffsetTree := tree ▸ inside
      by_cases same : i = id
      · subst same
        have valid : (vd.vc.ve i).Valid := by
          intro fio' there
          rw [fill, mem_some] at there
          subst there
          exact ⟨isTaken, this.missed.symm.trans stays.2⟩
        have filled : EntryOk t vd { vd.vc.ve i with veFillIo := none } := ⟨fun _ => ok.current valid, by simp⟩
        exact filled.like this
      · exact (inv.entries i before).like (others i before same)
  · unfold vdevCacheFill
    split
    · simp
    · rename_i noError
      intro served isServed
      obtain ⟨dio, waiting, rfl⟩ := mem_map.mp isServed
      have right := (ok.waits fio fill dio waiting).right (taken.resolve_left noError)
      simpa only [hitData, unfilled.data] using right

/-! ## Writes -/

theorem HeldSince.later {zio byte} (held : HeldSince vd zio offset byte)
    (issued : zio.issued ≤ vd.past.length) (disk : Disk) (writes : List InFlight) :
    HeldSince { vd with disk, past := vd.disk :: vd.past, writes } zio offset byte := by
  obtain ⟨found, member, same⟩ := held
  refine ⟨found, ?_, same⟩
  have : (vd.disk :: vd.past).length + 1 - zio.issued = (vd.past.length + 1 - zio.issued) + 1 := by
    simp only [length_cons]
    omega
  rw [this, take_succ_cons]
  exact mem_cons_of_mem _ member

variable {zio : WriteZio}

theorem not_covers_both (apart : zio.overlaps zio' = false)
    (covers : zio.Covers offset) (covers' : zio'.Covers offset) : False := by
  simp only [WriteZio.overlaps, decide_eq_false_iff_not, not_and] at apart
  obtain ⟨_, _⟩ := covers
  obtain ⟨_, _⟩ := covers'
  omega

theorem overlaps_comm (zio zio' : WriteZio) : zio.overlaps zio' = zio'.overlaps zio := by
  simp only [WriteZio.overlaps]
  rw [decide_eq_decide]
  exact and_comm

theorem Inv.writeIssue (inv : Inv t vd) (zio : WriteZio)
    (apart : (vd.writes.any fun write => write.zio.overlaps zio) = false) :
    Inv t { vd with writes := ⟨zio, none⟩ :: vd.writes } := by
  have current : ∀ {offset byte}, Current vd offset byte → Current { vd with writes := ⟨zio, none⟩ :: vd.writes } offset byte := by
    rintro offset byte (same | ⟨write, member, rest⟩)
    · exact .inl same
    · exact .inr ⟨write, mem_cons_of_mem _ member, rest⟩
  refine ⟨inv.wf, fun id member => ?_, ?_, ?_⟩
  · have ok := inv.entries id member
    exact ⟨fun valid phase inside => current (ok.current valid phase inside), fun fio there dio waiting =>
      have waits := ok.waits fio there dio waiting
      ⟨waits.issued, waits.line, waits.fits, waits.right⟩⟩
  · refine pairwise_cons.mpr ⟨fun write member => ?_, inv.apart⟩
    rw [overlaps_comm]
    simpa using any_eq_false.mp apart write member
  · intro write member took
    rcases mem_cons.mp member with rfl | before
    · simp at took
    · exact inv.took write before took

theorem Inv.eq_of_covers (inv : Inv t vd) {write write'} (member : write ∈ vd.writes)
    (member' : write' ∈ vd.writes) {offset} (covers : write.zio.Covers offset) (covers' : write'.zio.Covers offset) :
    write = write' := by
  have apart := inv.apart
  generalize vd.writes = writes at member member' apart
  induction writes with
  | nil => simp at member
  | cons first rest ih =>
    obtain ⟨fromFirst, apart⟩ := pairwise_cons.mp apart
    rcases mem_cons.mp member with rfl | later <;> rcases mem_cons.mp member' with rfl | later'
    · rfl
    · exact (not_covers_both (fromFirst write' later') covers covers').elim
    · exact (not_covers_both (fromFirst write later) covers' covers).elim
    · exact ih later later' apart

theorem Inv.eq_of_offset (inv : Inv t vd) (member : write ∈ vd.writes)
    (member' : write' ∈ vd.writes) (same : write'.zio.ioOffset = write.zio.ioOffset) : write' = write := by
  have := write.zio.positive
  have := write'.zio.positive
  exact @Inv.eq_of_covers t vd inv write' write member' member write.zio.ioOffset ⟨by omega, by omega⟩ ⟨by omega, by omega⟩

theorem writeAt_some (found : vd.writeAt offset = some write) : write ∈ vd.writes ∧ write.zio.ioOffset = offset :=
  ⟨mem_of_find?_eq_some found, by simpa using find?_some found⟩

theorem Inv.writeTake (inv : Inv t vd) (found : vd.writeAt offset = some ⟨zio, none⟩) :
    Inv t { vd with
      disk := zio.apply vd.disk
      past := vd.disk :: vd.past
      writes := vd.writes.map fun write =>
        if write.zio.ioOffset = offset then { write with replaced := some vd.disk } else write } := by
  obtain ⟨here, rfl⟩ := writeAt_some found
  have others : ∀ write ∈ vd.writes, write.replaced.isSome → write.zio.ioOffset ≠ zio.ioOffset := by
    intro write member took same
    rw [inv.eq_of_offset here member same] at took
    simp at took
  have current : ∀ {at_ byte}, Current vd at_ byte → Current { vd with
      disk := zio.apply vd.disk
      past := vd.disk :: vd.past
      writes := vd.writes.map fun write =>
        if write.zio.ioOffset = zio.ioOffset then { write with replaced := some vd.disk } else write } at_ byte := by
    rintro at_ byte (same | ⟨write, member, covers, before, isReplaced, was⟩)
    · by_cases covered : zio.Covers at_
      · exact .inr ⟨⟨zio, some vd.disk⟩, mem_map.mpr ⟨_, here, if_pos rfl⟩, covered, vd.disk, rfl, same.symm⟩
      · exact .inl (same.trans (if_neg covered).symm)
    · have took : write.replaced.isSome := isSome_iff_exists.mpr ⟨before, isReplaced⟩
      exact .inr ⟨write, mem_map.mpr ⟨write, member, if_neg (others write member took)⟩, covers, before, isReplaced, was⟩
  refine ⟨inv.wf, fun id member => ?_, ?_, ?_⟩
  · have ok := inv.entries id member
    refine ⟨fun valid phase inside => current (ok.current valid phase inside), fun fio there dio waiting => ?_⟩
    obtain ⟨issued, line, fits, right⟩ := ok.waits fio there dio waiting
    refine ⟨issued.trans (le_succ _), line, fits, fun taken i inside => ?_⟩
    exact (right taken i inside).imp_left fun held => held.later issued _ _
  · refine pairwise_map.mpr (inv.apart.imp fun {write write'} apart => ?_)
    split <;> split <;> exact apart
  · intro write' member' took at_ covers
    obtain ⟨write, member, rfl⟩ := mem_map.mp member'
    by_cases same : write.zio.ioOffset = zio.ioOffset
    · obtain rfl := inv.eq_of_offset here member same
      rw [if_pos rfl] at covers ⊢
      exact if_pos covers
    · rw [if_neg same] at took covers ⊢
      have apart : ¬zio.Covers at_ := fun covers' => same (by rw [inv.eq_of_covers member here covers covers'])
      exact (if_neg apart).trans (inv.took write member took at_ covers)

/-- A line that the loop of `vdev_cache_write` does not visit has no byte of the write. -/
theorem not_covers_of_not_visited (aligned : vcbs t ∣ offset) (inside : phase < vcbs t)
    (outside : ¬(p2align zio.ioOffset (vcbs t) ≤ offset ∧ offset < roundUp (zio.ioOffset + zio.ioSize) (vcbs t))) :
    ¬zio.Covers (offset + phase) := by
  rintro ⟨start, stop⟩
  apply outside
  constructor
  · obtain ⟨line, rfl⟩ := aligned
    have : zio.ioOffset / vcbs t ≤ line := by
      rw [← Nat.lt_succ_iff, Nat.div_lt_iff_lt_mul (vcbs_pos t), succ_mul, Nat.mul_comm]
      omega
    rw [p2align_vcbs, mul_comm (vcbs t)]
    exact mul_le_mul_right _ this
  · have := @le_roundUp (zio.ioOffset + zio.ioSize) (vcbs t) (vcbs_pos t)
    omega

theorem Inv.writeDone (inv : Inv t vd) (found : vd.writeAt offset = some ⟨zio, some before⟩) :
    Inv t { vd with
      vc := vdevCacheWrite t vd.vc zio
      writes := vd.writes.filter fun write => write.zio.ioOffset ≠ offset } := by
  obtain ⟨here, rfl⟩ := writeAt_some found
  obtain ⟨wf, tree, entries⟩ := vdevCacheWrite_spec inv.wf zio
  -- away from the write nothing changes
  have current : ∀ {at_ byte}, ¬zio.Covers at_ → Current vd at_ byte → Current { vd with
      vc := vdevCacheWrite t vd.vc zio
      writes := vd.writes.filter fun write => write.zio.ioOffset ≠ zio.ioOffset } at_ byte := by
    rintro at_ byte apart (same | ⟨write, member, covers, rest⟩)
    · exact .inl same
    · refine .inr ⟨write, mem_filter.mpr ⟨member, ?_⟩, covers, rest⟩
      simp only [ne_eq, decide_not, Bool.not_eq_eq_eq_not, Bool.not_true, decide_eq_false_iff_not]
      intro same
      rw [inv.eq_of_offset here member same] at covers
      exact apart covers
  refine ⟨wf, fun id member => ?_, inv.apart.filter _, fun write member => inv.took write (mem_filter.mp member).1⟩
  have member : id ∈ vd.vc.vcOffsetTree := tree ▸ member
  have ok := inv.entries id member
  have waits : ∀ fio ∈ (vd.vc.ve id).veFillIo, ∀ dio ∈ fio.ioDelegateList, Waits t { vd with
      vc := vdevCacheWrite t vd.vc zio
      writes := vd.writes.filter fun write => write.zio.ioOffset ≠ zio.ioOffset } (vd.vc.ve id) fio.taken dio :=
    fun fio there dio waiting =>
      have waits := ok.waits fio there dio waiting
      ⟨waits.issued, waits.line, waits.fits, waits.right⟩
  rw [entries id member]
  split
  · unfold writeEntry
    split
    · rename_i filling
      obtain ⟨fio, fill⟩ := isSome_iff_exists.mp filling
      refine ⟨fun valid => ?_, fun fio there dio waiting => ?_⟩
      · exact absurd (valid fio fill).2 (by simp)
      · obtain ⟨issued, line, fits, right⟩ := waits fio there dio waiting
        exact ⟨issued, line, fits, right⟩
    · rename_i filled
      have filled : (vd.vc.ve id).veFillIo = none := by simpa using filled
      refine ⟨fun _ phase inside => ?_, fun fio there => by simp [filled] at there⟩
      dsimp only
      split
      · rename_i written
        have covers : zio.Covers ((vd.vc.ve id).veOffset + phase) := ⟨by omega, by omega⟩
        exact .inl (inv.took _ here rfl _ covers).symm
      · rename_i unwritten
        refine current ?_ (ok.current (by simp [CacheEntry.Valid, filled]) phase inside)
        rintro ⟨start, stop⟩
        exact unwritten ⟨by omega, by omega⟩
  · rename_i outside
    exact ⟨fun valid phase inside => current (not_covers_of_not_visited (inv.wf.aligned id member) inside outside)
      (ok.current valid phase inside), waits⟩

/-! ## Runs -/

theorem exec_spec (inv : Inv t vd) (step : exec t vd event = some (vd', served)) :
    Inv t vd' ∧ ∀ read ∈ served, ∀ i < read.zio.ioSize, Right vd' read.zio (read.zio.ioOffset + i) (read.data i) := by
  cases event with
  | read request lbolt buffer =>
    obtain ⟨inv', right⟩ := vdevCacheRead_spec inv request lbolt buffer
    simp only [exec] at step
    generalize vdevCacheRead t vd.vc (vd.issue request) lbolt buffer = outcome at step inv' right
    obtain ⟨vc, result⟩ := outcome
    cases result with
    | miss error | waits =>
      cases step
      exact ⟨inv', by simp⟩
    | hit read =>
      cases step
      refine ⟨inv', fun read' member => ?_⟩
      rw [mem_singleton.mp member]
      exact right read rfl
  | fillTake id =>
    simp only [exec] at step
    split at step
    · rename_i fio filling
      split at step
      · cases step
      · cases step
        exact ⟨inv.fillTake filling, by simp⟩
    · cases step
  | fillDone id error lbolt =>
    simp only [exec] at step
    split at step
    · rename_i fio filling
      split at step
      · rename_i taken
        cases step
        exact vdevCacheFill_spec inv filling error lbolt (by simpa using taken)
      · cases step
    · cases step
  | writeIssue zio =>
    simp only [exec] at step
    split at step
    · cases step
    · rename_i apart
      cases step
      exact ⟨inv.writeIssue zio (by simpa using apart), by simp⟩
  | writeTake offset =>
    simp only [exec] at step
    split at step
    · rename_i zio found
      cases step
      exact ⟨inv.writeTake found, by simp⟩
    · cases step
  | writeDone offset =>
    simp only [exec] at step
    split at step
    · rename_i zio before found
      cases step
      exact ⟨inv.writeDone found, by simp⟩
    · cases step
  | purge =>
    simp only [exec, vdevCachePurge] at step
    split at step
    · cases step
      obtain ⟨wf, fewer⟩ := foldl_evict_wf vd.vc.vcOffsetTree inv.wf
      exact ⟨inv.fewer wf fewer, by simp⟩
    · cases step

theorem Vdev.Fresh.inv (fresh : vd.Fresh) : Inv t vd where
  wf := ⟨by simp [fresh.offsets], by simp [fresh.offsets], by simp [fresh.offsets, fresh.lastused], by simp [fresh.offsets]⟩
  entries := by simp [fresh.offsets]
  apart := by simp [fresh.writes]
  took := by simp [fresh.writes]

/-- In every interleaving, a read that is served from the cache or by a fill gets bytes that the
    device has held since the read was issued, or that a write had replaced which had taken effect but
    not completed at that time. The two trees always hold the same entries. -/
theorem vdev_cache_reads (reachable : (cacheRuns t).Reachable vd) :
    vd.vc.vcLastusedTree.Perm vd.vc.vcOffsetTree ∧
      ∀ event vd' served, exec t vd event = some (vd', served) → ∀ read ∈ served, ∀ i < read.zio.ioSize,
        HeldSince vd' read.zio (read.zio.ioOffset + i) (read.data i) ∨
          Replaced read.zio.inFlight (read.zio.ioOffset + i) (read.data i) := by
  have inv : Inv t vd := by
    refine reachable.invariant (fun vd fresh => Vdev.Fresh.inv fresh) ?_
    rintro vd vd' inv ⟨event, served, step⟩
    exact (exec_spec inv step).1
  exact ⟨inv.wf.same, fun _ _ _ step => (exec_spec inv step).2⟩

/-! ## A read that is behind the device -/

def defaultTunables : Tunables := ⟨2 ^ 14, 10 * 2 ^ 20, 16⟩

def zeroVdev : Vdev where
  vc := ⟨fun _ => ⟨fun _ => 0, 0, 0, 0, false, none⟩, 0, [], []⟩
  disk := fun _ => 0
  past := []
  writes := []

def firstSector : Request := ⟨0, 512, false, true, by decide⟩

def writeOnes : WriteZio := ⟨0, 512, fun _ => 1, by decide⟩

theorem zeroVdev_fresh : zeroVdev.Fresh := ⟨rfl, rfl, rfl, rfl⟩

/-- The first sector is read, and then written. The ones are on the device, but the write is not
    completed: a read gets zeros, which the device does not hold any more. -/
theorem vdev_cache_read_behind : ∃ vd, (cacheRuns defaultTunables).Reachable vd ∧
    ∃ vd' read, exec defaultTunables vd (.read firstSector 0 fun _ => 0) = some (vd', [read]) ∧
      ¬HeldSince vd' read.zio (read.zio.ioOffset + 0) (read.data 0) := by
  refine ⟨_, .next (.next (.next (.next (.next (.first zeroVdev_fresh) ⟨.read firstSector 0 fun _ => 0, _, rfl⟩)
    ⟨.fillTake 0, _, rfl⟩) ⟨.fillDone 0 false 0, _, rfl⟩) ⟨.writeIssue writeOnes, _, rfl⟩) ⟨.writeTake 0, _, rfl⟩,
    _, _, rfl, ?_⟩
  rintro ⟨disk, member, same⟩
  obtain rfl : disk = writeOnes.apply fun _ => 0 := mem_singleton.mp member
  exact absurd (show (1 : UInt8) = 0 from same) (by decide)

/-- The read that fills the line is served. -/
theorem vdev_cache_reads_filled : ∃ vd, (cacheRuns defaultTunables).Reachable vd ∧
    vd.vc.vcLastusedTree.Perm vd.vc.vcOffsetTree ∧
      ∀ event vd' served, exec defaultTunables vd event = some (vd', served) → ∀ read ∈ served, ∀ i < read.zio.ioSize,
        HeldSince vd' read.zio (read.zio.ioOffset + i) (read.data i) ∨
          Replaced read.zio.inFlight (read.zio.ioOffset + i) (read.data i) := by
  have filling : ∃ vd, (cacheRuns defaultTunables).Reachable vd ∧ vd.vc.vcOffsetTree = [0] :=
    ⟨_, .next (.next (.first zeroVdev_fresh) ⟨.read firstSector 0 fun _ => 0, _, rfl⟩) ⟨.fillTake 0, _, rfl⟩, rfl⟩
  obtain ⟨vd, reachable, -⟩ := filling
  exact ⟨vd, reachable, vdev_cache_reads reachable⟩

end MacZfs.Cache
