import MacZfs.Recv.Buffer

/-! # Every stream is read safely

A turn of the loop of `dmu_recvbackup` keeps to the buffer and to what it has read, as long as no write record has a
length that an `int` cannot hold, or data of the other byte order that are too short for their type.
-/

namespace MacZfs.Recv

open List

variable {ra : RestoreArg} {len : ℤ} {drrw : DrrWrite}

def Sound (stream : ℕ → UInt8) (after : RestoreArg × List Access) : Prop :=
  Ready stream after.1 ∧ ∀ access ∈ after.2, access.Safe

/-- `restore_read` is asked for more than the buffer holds, or for the length of the data; and where these are in the
    other byte order, `ot_byteswap` keeps to them. -/
def DrrWrite.Fits (drrw : DrrWrite) (byteswap : Bool) (data : ℤ → UInt8) : Prop :=
  drrw.bad = true ∨ bufsize < toInt drrw.drrLength ∨
    drrw.drrLength < 2 ^ 31 ∧ (byteswap = true → swapEnd drrw.drrType drrw.drrLength data ≤ drrw.drrLength)

/-- The stream from a position on. -/
def bytesFrom (stream : ℕ → UInt8) (position : ℕ) (x : ℤ) : UInt8 := stream (position + x.toNat)

def nextRecord (stream : ℕ → UInt8) (ra : RestoreArg) : Record :=
  recordAt ra.byteswap (bytesFrom stream ra.position) 0

/-- The data come after the record. -/
def Fits (stream : ℕ → UInt8) (ra : RestoreArg) : Prop :=
  ∀ drrw, nextRecord stream ra = .write drrw → drrw.Fits ra.byteswap (bytesFrom stream (ra.position + recordSize.toNat))

/-! ## What a read gives -/

theorem restoreRead_too_long (long : bufsize < len) (reads : List Rdwr) (ready : Ready stream ra) :
    (restoreRead stream len reads ra).rv = none := by
  have short {ra : RestoreArg} (ready : Ready stream ra) : ra.buflen - ra.bufoff < len := by
    have := ready.low
    have := ready.high
    omega
  induction reads generalizing ra with
  | nil => rw [restoreRead, if_pos (short ready)]
  | cons answer reads ih =>
    rw [restoreRead, if_pos (short ready)]
    split_ifs
    · rfl
    · exact ih (ready.refill answer).1

/-- A call of `vn_rdwr` that reads all it is asked for. -/
def fullRead : Rdwr := ⟨1 <<< 20, false⟩

theorem restoreRead_full (fits : len ≤ bufsize) (reads : List Rdwr) (ready : Ready stream ra) :
    ∃ rv, (restoreRead stream len (fullRead :: reads) ra).rv = some rv ∧
      ((restoreRead stream len (fullRead :: reads) ra).reads = fullRead :: reads ∨
        (restoreRead stream len (fullRead :: reads) ra).reads = reads) := by
  have size : bufsize = 1048576 := rfl
  obtain ⟨low, mid, high, _, _⟩ := ready
  rw [restoreRead]
  split_ifs with short failed
  · have resid : ¬ bufsize - (ra.buflen - ra.bufoff) - min ((1 <<< 20 : ℕ) : ℤ) (bufsize - (ra.buflen - ra.bufoff)) =
        bufsize - (ra.buflen - ra.bufoff) := by
      omega
    rw [refill, fullRead, Bool.false_or, decide_eq_true_eq] at failed
    exact absurd failed resid
  · have enough : ¬ (refill stream fullRead ra).buflen - (refill stream fullRead ra).bufoff < len := by
      simp only [refill, fullRead]
      omega
    refine ⟨0, ?_⟩
    cases reads with
    | nil | cons answer reads =>
      rw [restoreRead, if_neg enough]
      exact ⟨rfl, .inr rfl⟩
  · exact ⟨ra.bufoff, rfl, .inl rfl⟩

theorem number_congr (swap) (same : ∀ i < size, buf (place + i) = buf' (place' + i)) :
    number swap buf place size = number swap buf' place' size := by
  refine congrArg sum (map_congr_left fun i less => ?_)
  rw [same i (mem_range.mp less)]

theorem recordAt_congr (swap) (same : ∀ j : ℕ, j < recordSize → buf (place + j) = buf' (place' + j)) :
    recordAt swap buf place = recordAt swap buf' place' := by
  have field (offset size : ℕ) (inside : offset + size ≤ recordSize) :
      number swap buf (place + offset) size = number swap buf' (place' + offset) size := by
    refine number_congr swap fun i less => ?_
    have := same (offset + i) (by push_cast; omega)
    rwa [Nat.cast_add, ← add_assoc, ← add_assoc] at this
  have size : recordSize = 312 := rfl
  simp only [recordAt]
  have := field 0 4 (by omega)
  have := field 8 8 (by omega)
  have := field 16 4 (by omega)
  have := field 20 4 (by omega)
  have := field 24 4 (by omega)
  have := field 24 8 (by omega)
  have := field 28 4 (by omega)
  have := field 32 1 (by omega)
  have := field 32 8 (by omega)
  have := field 33 1 (by omega)
  simp_all

theorem Reads.record {read drr} (reads : Reads stream ra recordSize read)
    (some : read.rv = some drr) : recordAt ra.byteswap read.ra.buf drr = nextRecord stream ra := by
  obtain ⟨_, _, _, bytes⟩ := reads.got drr some
  refine recordAt_congr _ fun j less => ?_
  rw [bytes j less, zero_add]
  rfl

/-! ## Records -/

theorem Ready.fail (ready : Ready stream ra) (err : Bool) : Ready stream { ra with err := err } :=
  ⟨ready.low, ready.mid, ready.high, ready.behind, ready.content⟩

theorem Reads.use {read rv} (reads : Reads stream ra len read) (some : read.rv = some rv) {n}
    (fits : n ≤ len) : (Access.data rv n len).Safe := by
  obtain ⟨first, last, _, _⟩ := reads.got rv some
  exact ⟨first, fits, last.trans reads.ready.high⟩

theorem safe_append {accesses} {access : Access} (safe : ∀ one ∈ accesses, one.Safe) (last : access.Safe) :
    ∀ one ∈ accesses ++ [access], one.Safe := by
  intro one within
  rcases mem_append.mp within with early | late
  · exact safe one early
  · rw [mem_singleton.mp late]
    exact last

theorem Sound.after {after accesses} (sound : Sound stream after)
    (safe : ∀ one ∈ accesses, one.Safe) : Sound stream (after.1, accesses ++ after.2) := by
  refine ⟨sound.1, fun one within => ?_⟩
  rcases mem_append.mp within with early | late
  · exact safe one early
  · exact sound.2 one late

theorem p2roundup_bonuslen : ∀ n : Fin 321, n.val ≤ p2roundup n 8 := by decide +kernel

/-- `restore_object` reads whole words. -/
theorem restoreObject_sound (answers) (reads : List Rdwr) (drro) (ready : Ready stream ra) :
    Sound stream (restoreObject stream answers reads drro ra) := by
  rw [restoreObject]
  split_ifs with refused bonus
  · exact ⟨ready.fail true, by simp⟩
  · have small : drro.drrBonuslen ≤ 320 := by
      simp only [DrrObject.bad, Bool.or_eq_true, decide_eq_true_eq] at refused
      omega
    have round : drro.drrBonuslen ≤ p2roundup drro.drrBonuslen 8 := p2roundup_bonuslen ⟨drro.drrBonuslen, by omega⟩
    have result : Reads stream ra (p2roundup drro.drrBonuslen 8 : ℕ) _ := restoreRead_reads (by omega) reads ready
    dsimp only
    cases data : (restoreRead stream (p2roundup drro.drrBonuslen 8 : ℕ) reads ra).rv with
    | none => exact ⟨result.ready, result.safe⟩
    | some data' => exact ⟨result.ready, safe_append result.safe (result.use data (by omega))⟩
  · exact ⟨ready, by simp⟩

theorem toInt_small (small : x < 2 ^ 31) : toInt x = x := by
  exact Int.bmod_eq_of_le (by omega) (by norm_num; omega)

/-- What `ot_byteswap` does depends on what was read. -/
theorem Reads.swapEnd {read rv} (reads : Reads stream ra len read) (some : read.rv = some rv) {size : ℕ} (same : size = len) (type) :
    swapEnd type size (fun x => read.ra.buf (rv + x)) = swapEnd type size (bytesFrom stream ra.position) := by
  obtain ⟨_, _, _, bytes⟩ := reads.got rv some
  unfold Recv.swapEnd
  congr 3
  funext x
  split_ifs with inside
  · have byte := bytes x.toNat (by omega)
    rwa [Int.toNat_of_nonneg inside.1] at byte
  · rfl

/-- `restore_write`, if the length is not cut and `ot_byteswap` keeps to it. -/
theorem restoreWrite_sound (answers) (reads : List Rdwr) (fits : drrw.Fits ra.byteswap (bytesFrom stream ra.position))
    (ready : Ready stream ra) : Sound stream (restoreWrite stream answers reads drrw ra) := by
  have size : bufsize = 1048576 := rfl
  rw [restoreWrite]
  by_cases refused : drrw.bad = true
  · rw [if_pos refused]
    exact ⟨ready.fail true, by simp⟩
  · rw [if_neg refused]
    have positive : 0 ≤ toInt drrw.drrLength := by
      rcases fits.resolve_left refused with long | ⟨small, _⟩
      · omega
      · rw [toInt_small small]
        omega
    have result := restoreRead_reads positive reads ready
    dsimp only
    cases data : (restoreRead stream (toInt drrw.drrLength) reads ra).rv with
    | none => exact ⟨result.ready, result.safe⟩
    | some data' =>
      obtain ⟨small, swaps⟩ := (fits.resolve_left refused).resolve_left fun long => by
        rw [restoreRead_too_long long reads ready] at data
        cases data
      have whole : (drrw.drrLength : ℤ) = toInt drrw.drrLength := (toInt_small small).symm
      have use : (Access.data data' drrw.drrLength (toInt drrw.drrLength)).Safe := result.use data whole.le
      dsimp only
      split_ifs with failed swap
      · exact ⟨result.ready.fail true, result.safe⟩
      · refine ⟨result.ready, ?_⟩
        rw [append_cons, result.swapEnd data whole]
        exact safe_append (safe_append result.safe (result.use data ((swaps swap).trans whole.le))) use
      · exact ⟨result.ready, safe_append result.safe use⟩

theorem recvRecord_sound (answers) (fits : Fits stream ra) (ready : Ready stream ra) :
    Sound stream (recvRecord stream answers ra) := by
  have result : Reads stream ra recordSize _ := restoreRead_reads (by decide) answers.reads ready
  rw [recvRecord]
  cases data : (restoreRead stream recordSize answers.reads ra).rv with
  | none => exact ⟨result.ready, result.safe⟩
  | some drr =>
    have first := safe_append result.safe (result.use data le_rfl)
    have record := result.record data
    dsimp only
    split_ifs
    · exact ⟨result.ready.fail true, first⟩
    · cases kind : recordAt ra.byteswap (restoreRead stream recordSize answers.reads ra).ra.buf drr with
      | object drro => exact (restoreObject_sound answers _ drro result.ready).after first
      | write drrw =>
        have fits := fits drrw (record ▸ kind)
        rw [← (result.got drr data).2.2.1, ← result.byteswap] at fits
        exact (restoreWrite_sound answers _ fits result.ready).after first
      | free | last => exact ⟨result.ready.fail _, by simpa using first⟩

/-! ## Runs -/

/-- `restore_write` with data for an object that is there. -/
theorem restoreWrite_uses (accepted : ¬ drrw.bad = true) (ready : Ready stream ra)
    (got : (restoreRead stream (toInt drrw.drrLength) reads ra).rv = some data) (found : answers.objectInfo = true)
    (works : answers.fails = false) :
    Access.data data drrw.drrLength (toInt drrw.drrLength) ∈ (restoreWrite stream answers reads drrw ra).2 ∧
      (ra.byteswap = true → drrw.drrLength = toInt drrw.drrLength →
        Access.data data (swapEnd drrw.drrType drrw.drrLength (bytesFrom stream ra.position)) (toInt drrw.drrLength) ∈
          (restoreWrite stream answers reads drrw ra).2) := by
  rw [restoreWrite, if_neg accepted]
  dsimp only
  rw [got]
  dsimp only
  rw [if_neg (by simp [found, works])]
  refine ⟨mem_append_right _ ?_, fun swap whole => mem_append_right _ ?_⟩
  · split_ifs
    · exact mem_cons_of_mem _ mem_cons_self
    · exact mem_cons_self
  · have result := restoreRead_reads (show 0 ≤ toInt drrw.drrLength by omega) reads ready
    rw [if_pos swap, result.swapEnd got whole]
    exact mem_cons_self

/-- A length that is cut makes `dmu_write` go beyond what was read, and data that are too short `ot_byteswap`. -/
theorem restoreWrite_beyond (cut : ¬ drrw.Fits ra.byteswap (bytesFrom stream ra.position)) (reads : List Rdwr)
    (ready : Ready stream ra) (answers) (found : answers.objectInfo = true) (works : answers.fails = false) :
    ∃ access ∈ (restoreWrite stream answers (fullRead :: reads) drrw ra).2, ¬ access.Safe := by
  have size : bufsize = 1048576 := rfl
  simp only [DrrWrite.Fits, not_or, not_and, not_lt, Classical.not_imp, not_le] at cut
  obtain ⟨accepted, short, beyond⟩ := cut
  obtain ⟨rv, data, _⟩ := restoreRead_full short reads ready
  obtain ⟨use, swaps⟩ := restoreWrite_uses accepted ready data found works
  by_cases small : drrw.drrLength < 2 ^ 31
  · obtain ⟨swap, far⟩ := beyond small
    have whole : (drrw.drrLength : ℤ) = toInt drrw.drrLength := (toInt_small small).symm
    refine ⟨_, swaps swap whole, fun safe => ?_⟩
    exact absurd safe.2.1 (not_le.mpr (whole ▸ far))
  · refine ⟨_, use, fun safe => ?_⟩
    have inside := safe.2.1
    omega

/-- So whether a turn is safe, whatever the rest of the system answers, depends only on the record that comes next. -/
theorem Ready.safe_iff (ready : Ready stream ra) :
    (∀ answers, ∀ access ∈ (recvRecord stream answers ra).2, access.Safe) ↔ Fits stream ra := by
  refine ⟨fun safe drrw next => ?_, fun fits answers => (recvRecord_sound answers fits ready).2⟩
  by_contra cut
  let answers : Answers :=
    { reads := [fullRead, fullRead], issig := false, objectInfo := true, objectInfoBad := false, fails := false }
  have result : Reads stream ra recordSize _ := restoreRead_reads (by decide) answers.reads ready
  obtain ⟨drr, data, rest⟩ := restoreRead_full (by decide : recordSize ≤ bufsize) [fullRead] ready
  have more : ∃ reads, (restoreRead stream recordSize answers.reads ra).reads = fullRead :: reads := by
    rcases rest with both | one
    · exact ⟨_, both⟩
    · exact ⟨_, one⟩
  obtain ⟨reads, left⟩ := more
  have record := (result.record data).trans next
  rw [← (result.got drr data).2.2.1, ← result.byteswap] at cut
  obtain ⟨access, one, harm⟩ := restoreWrite_beyond cut reads result.ready answers rfl rfl
  refine harm (safe answers access ?_)
  rw [recvRecord]
  rw [show (restoreRead stream recordSize answers.reads ra).rv = some drr from data]
  dsimp only
  rw [if_neg (by simp [answers]), record]
  rw [left]
  exact mem_append_right _ one

/-- Runs of the loop of `dmu_recvbackup` over a stream, in which every write record fits. -/
def backup (stream : ℕ → UInt8) : Runs.System RestoreArg where
  init ra := ra.err = false ∧ ra.buflen = 0 ∧ ra.bufoff = 0
  step ra ra' := ra.err = false ∧ Fits stream ra ∧ ∃ answers, ra' = (recvRecord stream answers ra).1

theorem ready_of_reachable (reachable : (backup stream).Reachable ra) : Ready stream ra := by
  refine reachable.invariant (fun ra first => ?_) fun ra ra' ready step => ?_
  · obtain ⟨_, buflen, bufoff⟩ := first
    have size : bufsize = 1048576 := rfl
    refine ⟨?_, ?_, ?_, ?_, fun x first last => ?_⟩
    all_goals omega
  · obtain ⟨_, fits, answers, rfl⟩ := step
    exact (recvRecord_sound answers fits ready).1

/-- As long as every write record fits, the offsets are in order, a read gives the next bytes of the stream, and
    everything that the next turn does is safe exactly if its record fits. -/
theorem recvbackup_safe_iff (stream : ℕ → UInt8) {ra : RestoreArg} (reachable : (backup stream).Reachable ra) :
    0 ≤ ra.bufoff ∧ ra.bufoff ≤ ra.buflen ∧ ra.buflen ≤ bufsize ∧
      (∀ len reads rv, 0 ≤ len → (restoreRead stream len reads ra).rv = some rv →
        ∀ j : ℕ, j < len → (restoreRead stream len reads ra).ra.buf (rv + j) = stream (ra.position + j)) ∧
      ((∀ answers, ∀ access ∈ (recvRecord stream answers ra).2, access.Safe) ↔ Fits stream ra) := by
  have ready := ready_of_reachable reachable
  refine ⟨ready.low, ready.mid, ready.high, fun len reads rv positive some => ?_, ready.safe_iff⟩
  exact ((restoreRead_reads positive reads ready).got rv some).2.2.2

/-- A stream with a write record of so many bytes, of which the first word is `low` and the next `high`. -/
def writeStream (low high : UInt8) (i : ℕ) : UInt8 :=
  match i with
  | 0 => 3
  | 8 => 5
  | 16 => 19
  | 32 => low
  | 36 => high
  | _ => 0

/-- A stream in the other byte order, with a write record of so many bytes for a directory that starts a micro ZAP. -/
def swappedStream (length : UInt8) (i : ℕ) : UInt8 :=
  match i with
  | 3 => 3
  | 15 => 5
  | 19 => 20
  | 39 => length
  | 312 => 0x80
  | 319 => 3
  | _ => 0

def freshArg (byteswap : Bool) : RestoreArg where
  err := false
  byteswap := byteswap
  voff := 0
  buf := fun _ => 0
  buflen := 0
  bufoff := 0

/-- A write of 16 bytes is safe for a micro ZAP. -/
theorem recvbackup_safe_iff_swapped : (backup (swappedStream 16)).Reachable (freshArg true) ∧
    ∀ answers, ∀ access ∈ (recvRecord (swappedStream 16) answers (freshArg true)).2, access.Safe := by
  have first : (backup (swappedStream 16)).Reachable (freshArg true) := .first ⟨rfl, rfl, rfl⟩
  refine ⟨first, (recvbackup_safe_iff _ first).2.2.2.2.mpr fun drrw next => ?_⟩
  have record : nextRecord (swappedStream 16) (freshArg true) = .write ⟨5, 20, 0, 16⟩ := by decide +kernel
  obtain rfl := Record.write.inj (next.symm.trans record)
  exact .inr (.inr ⟨by decide, fun _ => by decide +kernel⟩)

/-- A write of `2 ^ 32 + 8` bytes is not safe: 8 bytes are read for it. Nor is one of 8 bytes for a micro ZAP, of which
    16 are swapped. -/
theorem recvbackup_beyond :
    ((backup (writeStream 8 1)).Reachable (freshArg false) ∧
      ∃ access ∈ (recvRecord (writeStream 8 1) ⟨[fullRead], false, true, false, false⟩ (freshArg false)).2,
        access = .data 312 (2 ^ 32 + 8) 8 ∧ ¬ access.Safe) ∧
    (backup (swappedStream 8)).Reachable (freshArg true) ∧
      ∃ access ∈ (recvRecord (swappedStream 8) ⟨[fullRead], false, true, false, false⟩ (freshArg true)).2,
        access = .data 312 16 8 ∧ ¬ access.Safe := by
  refine ⟨⟨.first ⟨rfl, rfl, rfl⟩, _, ?_, rfl, fun safe => absurd safe.2.1 (by decide)⟩, .first ⟨rfl, rfl, rfl⟩, _, ?_, rfl,
    fun safe => absurd safe.2.1 (by decide)⟩
  · decide +kernel
  · decide +kernel

end MacZfs.Recv
