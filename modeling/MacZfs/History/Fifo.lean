import MacZfs.History.Basic

/-! # The log is a queue

The records of the creation of the pool stay. The other records form a queue: as many of the oldest as are in the way are
dropped for a new one.
-/

namespace MacZfs.History

open List Option HistoryPhys Ring Nat

/-! ## Records -/

def frame (recordPacked : List UInt8) : List UInt8 := le64 recordPacked.length ++ recordPacked

@[simp] theorem length_le64 (n) : (le64 n).length = 8 := by
  simp [le64]

@[simp] theorem length_frame (recordPacked) : (frame recordPacked).length = 8 + recordPacked.length := by
  simp [frame]

theorem ofLe64_le64 (small : n < 2 ^ 64) : ofLe64 (le64 n) = n := by
  simp only [ofLe64, le64, range_succ, range_zero, nil_append, map_cons, map_nil,
    cons_append, ofDigits_cons, ofDigits_nil, UInt8.toNat_ofNat']
  omega

/-! ## The state of the log -/

def HistoryPhys.cap (h : HistoryPhys) : ℕ := h.shPhysMaxOff - h.shPoolCreateLen

structure Keeps (h : HistoryPhys) (created content : List UInt8) : Prop where
  create : h.shPoolCreateLen = created.length
  kept : ∀ j, j < created.length → created[j]? = some (h.object j)
  room : h.shPoolCreateLen < h.shPhysMaxOff
  small : h.shPhysMaxOff ≤ 2 ^ 64
  bof : h.shPoolCreateLen ≤ h.shBof
  eof : h.shEof = h.shBof + content.length
  fits : content.length < h.cap
  holds : Ring.Holds h.shPoolCreateLen h.cap h.object h.shBof content

variable {created tail : List UInt8}

theorem logToPhys_eq (h) (logOff : ℕ) :
    spaHistoryLogToPhys logOff h = phys h.shPoolCreateLen h.cap logOff := rfl

section

variable (keeps : Keeps h created content)

include keeps

theorem Keeps.max_eq : h.shPhysMaxOff = h.shPoolCreateLen + h.cap := by
  have := keeps.room
  rw [cap]
  omega

theorem Keeps.read (off n) :
    (if min n (h.shPhysMaxOff - spaHistoryLogToPhys off h) ≠ n then
      dmuRead h (spaHistoryLogToPhys off h) (min n (h.shPhysMaxOff - spaHistoryLogToPhys off h)) ++
        dmuRead h h.shPoolCreateLen (n - min n (h.shPhysMaxOff - spaHistoryLogToPhys off h))
      else dmuRead h (spaHistoryLogToPhys off h) (min n (h.shPhysMaxOff - spaHistoryLogToPhys off h))) =
      Ring.read h.shPoolCreateLen h.cap h.object off n := by
  rw [Ring.read, ← keeps.max_eq, logToPhys_eq]
  split_ifs with short
  · rfl
  · rw [not_not.mp short, Nat.sub_self]
    simp [dmuRead, Ring.fetch]

theorem Keeps.object_write (off) :
    (if (buf.drop (min buf.length (h.shPhysMaxOff - spaHistoryLogToPhys off h))).length > 0 then
      store (store h.object (spaHistoryLogToPhys off h)
        (buf.take (min buf.length (h.shPhysMaxOff - spaHistoryLogToPhys off h)))) h.shPoolCreateLen
        (buf.drop (min buf.length (h.shPhysMaxOff - spaHistoryLogToPhys off h)))
      else store h.object (spaHistoryLogToPhys off h)
        (buf.take (min buf.length (h.shPhysMaxOff - spaHistoryLogToPhys off h)))) =
      write h.shPoolCreateLen h.cap h.object off buf := by
  rw [write, ← keeps.max_eq, logToPhys_eq]
  split_ifs with more
  · rfl
  · rw [eq_nil_of_length_eq_zero (Nat.eq_zero_of_not_pos more)]
    funext x
    simp [store]

end

theorem Keeps.advanceBof (keeps : Keeps h created (frame recordPacked ++ content)) : spaHistoryAdvanceBof h =
    { h with shBof := h.shBof + (recordPacked.length + 8), shRecordsLost := h.shRecordsLost + 1 } := by
  have fits := keeps.fits
  have cap : h.cap ≤ h.shPhysMaxOff := sub_le _ _
  have small := keeps.small
  rw [length_append, length_frame] at fits
  have word : (frame recordPacked ++ content).take 8 = le64 recordPacked.length := by
    rw [frame, append_assoc, ← length_le64 recordPacked.length, take_left]
  have read := (keeps.read h.shBof 8).trans (keeps.holds.read keeps.bof keeps.fits.le (by simp; omega))
  rw [word] at read
  simp only [spaHistoryAdvanceBof]
  rw [read, ofLe64_le64 (by omega)]

theorem Keeps.advance (keeps : Keeps h created (frame recordPacked ++ content)) :
    Keeps (spaHistoryAdvanceBof h) created content := by
  have length : (frame recordPacked ++ content).length = recordPacked.length + 8 + content.length := by
    simp
    omega
  have fits := keeps.fits
  have eof := keeps.eof
  have bof := keeps.bof
  rw [length] at fits eof
  rw [keeps.advanceBof]
  refine ⟨keeps.create, keeps.kept, keeps.room, keeps.small, by dsimp only; omega, by dsimp only; omega, ?_, ?_⟩
  · exact lt_of_le_of_lt (le_add_left _ _) fits
  · have dropped := keeps.holds.drop (frame recordPacked).length
    rwa [drop_left, length_frame, add_comm 8] at dropped

theorem Keeps.free (keeps : Keeps h created content) :
    h.shPhysMaxOff - h.shPoolCreateLen - (h.shEof - h.shBof) = h.cap - content.length := by
  rw [keeps.eof, Nat.add_sub_cancel_left]
  rfl

theorem Keeps.makeRoom (live : List (List UInt8)) (n) (enough : live.length < n)
    (keeps : Keeps h created (live.flatMap frame ++ tail)) (room : tail.length + len < h.cap) :
    ∃ k h', makeRoom len n h = some h' ∧ k ≤ live.length ∧ h'.shRecordsLost = h.shRecordsLost + k ∧ h'.cap = h.cap ∧
      h'.shEof = h.shEof ∧ Keeps h' created ((live.drop k).flatMap frame ++ tail) ∧
      ((live.drop k).flatMap frame ++ tail).length + len < h.cap := by
  induction live generalizing n h with
  | nil =>
    obtain ⟨n, rfl⟩ : ∃ m, n = m + 1 := ⟨n - 1, by omega⟩
    rw [History.makeRoom, keeps.free, if_neg (by simp; omega)]
    exact ⟨0, h, rfl, le_rfl, rfl, rfl, rfl, keeps, by simpa using room⟩
  | cons oldest live ih =>
    obtain ⟨n, rfl⟩ : ∃ m, n = m + 1 := ⟨n - 1, by omega⟩
    rw [History.makeRoom, keeps.free]
    split_ifs with full
    · rw [flatMap_cons, append_assoc] at keeps
      obtain ⟨k, h', made, few, lost, cap, eof, keeps', fits⟩ := ih n (by simpa using enough) keeps.advance room
      have one : (spaHistoryAdvanceBof h).shRecordsLost = h.shRecordsLost + 1 := rfl
      exact ⟨k + 1, h', made, by simpa using few, by omega, cap, eof, keeps', fits⟩
    · exact ⟨0, h, rfl, zero_le _, rfl, rfl, rfl, keeps, by simp at full ⊢; omega⟩

theorem length_le_frames (live : List (List UInt8)) : live.length ≤ (live.flatMap frame).length := by
  induction live with
  | nil => exact le_rfl
  | cons oldest live ih =>
    rw [flatMap_cons, length_append, length_frame, length_cons]
    omega

/-- The bytes that a write adds, after the records that have to go. -/
theorem Keeps.write (buf : List UInt8) (live : List (List UInt8)) (keeps : Keeps h created (live.flatMap frame ++ tail))
    (room : tail.length + buf.length < h.cap) :
    ∃ k h', spaHistoryWrite buf h = some h' ∧ k ≤ live.length ∧ h'.shRecordsLost = h.shRecordsLost + k ∧ h'.cap = h.cap ∧
      h'.shEof = h.shEof + buf.length ∧ Keeps h' created ((live.drop k).flatMap frame ++ (tail ++ buf)) := by
  have enough : live.length < h.shEof - h.shBof + 1 := by
    have frames := length_le_frames live
    rw [keeps.eof, length_append]
    omega
  obtain ⟨k, h', made, few, lost, cap, end', keeps', fits⟩ := keeps.makeRoom live _ enough room
  refine ⟨k, { h' with
    shEof := h'.shEof + buf.length
    object := Ring.write h'.shPoolCreateLen h'.cap h'.object h'.shEof buf }, ?_, few, lost, cap, congrArg (· + buf.length) end', ?_⟩
  · simp only [spaHistoryWrite, made, bind_eq_bind, bind_some, dmuWrite]
    rw [← keeps'.object_write]
    split_ifs <;> rfl
  · have bof := keeps'.bof
    have eof := keeps'.eof
    have positive : 0 < h'.cap := zero_lt_of_lt keeps'.fits
    have holds := keeps'.holds.write buf bof (by omega)
    rw [← eof, append_assoc] at holds
    refine ⟨keeps'.create, fun j less => ?_, keeps'.room, keeps'.small, bof, ?_, ?_, holds⟩
    · exact (keeps'.kept j less).trans (congrArg some (Ring.write_below positive (keeps'.create ▸ less)).symm)
    · simp only [length_append] at eof ⊢
      omega
    · simp only [length_append] at fits ⊢
      exact lt_of_eq_of_lt (by omega) (cap.symm ▸ fits)

theorem Keeps.log (live : List (List UInt8)) (keeps : Keeps h created (live.flatMap frame))
    (fits : recordPacked.length + 8 < h.cap) :
    ∃ k h', (spaHistoryWrite (le64 recordPacked.length) h).bind (spaHistoryWrite recordPacked) = some h' ∧
      k ≤ live.length ∧ h'.shRecordsLost = h.shRecordsLost + k ∧ h'.cap = h.cap ∧
      h'.shEof = h.shEof + (8 + recordPacked.length) ∧ Keeps h' created ((live.drop k).flatMap frame ++ frame recordPacked) := by
  rw [← append_nil (live.flatMap frame)] at keeps
  obtain ⟨k, h₁, first, few, lost, cap, end₁, keeps₁⟩ :=
    keeps.write (le64 recordPacked.length) live (by simp; omega)
  obtain ⟨k', h₂, second, few', lost', cap', end₂, keeps₂⟩ :=
    keeps₁.write recordPacked (live.drop k) (by simp; omega)
  rw [length_drop] at few'
  rw [drop_drop] at keeps₂
  rw [length_le64] at end₁
  refine ⟨k + k', h₂, ?_, by omega, by omega, cap'.trans cap, by omega, keeps₂⟩
  rw [first, bind_some, second]

/-! ## The log after a sequence of records -/

def Fits (h : HistoryPhys) (recordPacked : List UInt8) : Prop :=
  recordPacked.length + 8 < h.shPhysMaxOff - h.shPoolCreateLen

inductive Logged : HistoryPhys → List (List UInt8) → List (List UInt8) → Prop
  | createObj (dspace : ℕ) : Logged (spaHistoryCreateObj dspace) [] []
  | poolCreate {h h' : HistoryPhys} {creates written : List (List UInt8)} {recordPacked : List UInt8} :
      Logged h creates written → Fits h recordPacked → spaHistoryLogSync .poolCreate recordPacked h = some h' →
      Logged h' (creates ++ [recordPacked]) written
  | other {h h' : HistoryPhys} {creates written : List (List UInt8)} {logType : HistoryLogType}
      {recordPacked : List UInt8} :
      Logged h creates written → Fits h recordPacked → logType ≠ .poolCreate →
      spaHistoryLogSync logType recordPacked h = some h' → Logged h' creates (written ++ [recordPacked])

structure Queue (h : HistoryPhys) (creates written : List (List UInt8)) : Prop where
  few : h.shRecordsLost ≤ written.length
  keeps : Keeps h (creates.flatMap frame) ((written.drop h.shRecordsLost).flatMap frame)

theorem queue_createObj (dspace : ℕ) : Queue (spaHistoryCreateObj dspace) [] [] := by
  refine ⟨le_rfl, rfl, fun j none => absurd none (not_lt_zero j), ?_, ?_, le_rfl, rfl, ?_, holds_nil⟩
  all_goals
    simp only [spaHistoryCreateObj, cap, drop_nil, flatMap_nil, length_nil]
    omega

variable {written : List (List UInt8)}

def HistoryPhys.extend (h : HistoryPhys) (len : ℕ) : HistoryPhys :=
  { h with shPoolCreateLen := h.shPoolCreateLen + len, shBof := h.shPoolCreateLen + len }

theorem logSync_other (kind : logType ≠ .poolCreate) : spaHistoryLogSync logType recordPacked h =
    (spaHistoryWrite (le64 recordPacked.length) h).bind (spaHistoryWrite recordPacked) := by
  simp only [spaHistoryLogSync, kind, false_and, if_false]
  cases spaHistoryWrite (le64 recordPacked.length) h with
  | none => rfl
  | some h₁ =>
    simp only [bind_eq_bind, bind_some]
    cases spaHistoryWrite recordPacked h₁ <;> rfl

theorem logSync_poolCreate : spaHistoryLogSync .poolCreate recordPacked h =
    if h.shEof ≠ h.shPoolCreateLen then none
    else ((spaHistoryWrite (le64 recordPacked.length) h).bind (spaHistoryWrite recordPacked)).map
      fun h => h.extend (8 + recordPacked.length) := by
  simp only [spaHistoryLogSync, true_and]
  split_ifs with started
  · rfl
  · cases spaHistoryWrite (le64 recordPacked.length) h with
    | none => rfl
    | some h₁ =>
      simp only [bind_eq_bind, bind_some]
      cases spaHistoryWrite recordPacked h₁ <;> rfl

/-- Another record is logged, after older ones are dropped if need be. -/
theorem Queue.other (queue : Queue h creates written) (fits : Fits h recordPacked) (kind : logType ≠ .poolCreate) :
    ∃ h', spaHistoryLogSync logType recordPacked h = some h' ∧ h'.shRecordsLost ≤ written.length ∧ h'.cap = h.cap ∧
      h'.shEof = h.shEof + (8 + recordPacked.length) ∧ Queue h' creates (written ++ [recordPacked]) := by
  have few := queue.few
  obtain ⟨k, h', logged, less, lost, cap, stop, keeps⟩ := queue.keeps.log _ fits
  rw [length_drop] at less
  refine ⟨h', (logSync_other kind).trans logged, by omega, cap, stop, by simp; omega, ?_⟩
  rw [drop_append_of_le_length (by omega), flatMap_append, lost, ← drop_drop]
  simpa using keeps

theorem Keeps.extend (keeps : Keeps h created (frame recordPacked)) (start : h.shBof = h.shPoolCreateLen) :
    Keeps (h.extend (8 + recordPacked.length)) (created ++ frame recordPacked) [] := by
  have fits := keeps.fits
  have max := keeps.max_eq
  rw [length_frame] at fits
  refine ⟨by simp [HistoryPhys.extend, keeps.create], fun j less => ?_, ?_, keeps.small, le_rfl, ?_, ?_, Ring.holds_nil⟩
  · rw [length_append, length_frame] at less
    rcases lt_or_ge j created.length with old | new
    · rw [getElem?_append_left old]
      exact keeps.kept j old
    · have place : Ring.phys h.shPoolCreateLen h.cap (h.shBof + (j - created.length)) = j := by
        rw [Ring.phys, start, Nat.add_sub_cancel_left, Nat.mod_eq_of_lt (by omega), keeps.create]
        omega
      rw [List.getElem?_append_right new, keeps.holds _ (by rw [length_frame]; omega), place]
      rfl
  · simp only [HistoryPhys.extend]
    omega
  · have eof := keeps.eof
    rw [length_frame] at eof
    simp only [HistoryPhys.extend, length_nil]
    omega
  · simp only [HistoryPhys.extend, HistoryPhys.cap, length_nil]
    omega

/-- A record of the creation is logged as long as there are no others. -/
theorem Queue.poolCreate (queue : Queue h creates written) (fits : Fits h recordPacked)
    (start : h.shEof = h.shPoolCreateLen) :
    ∃ h', spaHistoryLogSync .poolCreate recordPacked h = some h' ∧ Queue h' (creates ++ [recordPacked]) written := by
  have few := queue.few
  have bof := queue.keeps.bof
  have eof := queue.keeps.eof
  have frames := length_le_frames (written.drop h.shRecordsLost)
  have none : written.drop h.shRecordsLost = [] := eq_nil_of_length_eq_zero (by omega)
  obtain ⟨k, h', logged, less, lost, _, stop, keeps⟩ := queue.keeps.log _ fits
  rw [none, length_nil, le_zero] at less
  subst less
  rw [none, drop_nil, flatMap_nil, nil_append] at keeps
  have eof' := keeps.eof
  have same : h'.shBof = h'.shPoolCreateLen := by
    rw [length_frame] at eof'
    rw [keeps.create, ← queue.keeps.create]
    omega
  have after := keeps.extend same
  refine ⟨h'.extend (8 + recordPacked.length), ?_, le_of_eq_of_le lost few, ?_⟩
  · rw [logSync_poolCreate, if_neg (not_not.mpr start), logged]
    rfl
  · have lost' : (h'.extend (8 + recordPacked.length)).shRecordsLost = h.shRecordsLost := lost
    rw [lost', none, flatMap_append]
    simpa using after

theorem Logged.queue (logged : Logged h creates written) : Queue h creates written := by
  induction logged with
  | createObj dspace => exact queue_createObj dspace
  | @poolCreate h _ _ _ _ _ fits done queue =>
    by_cases start : h.shEof = h.shPoolCreateLen
    · obtain ⟨h', done', queue'⟩ := queue.poolCreate fits start
      obtain rfl := Option.some.inj (done'.symm.trans done)
      exact queue'
    · rw [logSync_poolCreate, if_pos start] at done
      cases done
  | other _ fits kind done queue =>
    obtain ⟨h', done', _, _, _, queue'⟩ := queue.other fits kind
    obtain rfl := Option.some.inj (done'.symm.trans done)
    exact queue'

end MacZfs.History
