import MacZfs.History.Fifo

/-! # Reading the log

`spa_history_get` gives the records of the creation of the pool and then those that are left of the others, however the
reads divide them.
-/

namespace MacZfs.History

open List

variable {h : HistoryPhys} {created content : List UInt8}

section

variable (keeps : Keeps h created content)

include keeps

theorem Keeps.get_created (less : off < created.length) (some : 0 < len) :
    spaHistoryGet h off len = (off + min len (created.length - off), min len (created.length - off),
      (created.drop off).take (min len (created.length - off))) := by
  have first : Ring.fetch h.object off (min len (created.length - off)) =
      (created.drop off).take (min len (created.length - off)) := by
    refine ext_getElem? fun j => ?_
    rcases lt_or_ge j (min len (created.length - off)) with inside | outside
    · rw [Ring.fetch_getElem? inside, getElem?_take_of_lt inside, getElem?_drop, keeps.kept _ (by omega)]
    · rw [getElem?_eq_none (by simpa using outside), getElem?_eq_none (by simp; omega)]
  have more : min len (created.length - off) ≠ 0 := by omega
  simp only [spaHistoryGet, keeps.create, if_pos less, if_neg more, dmuRead, first]
  simp

theorem Keeps.readLengths_eq (len : ℕ) (bof : h.shPoolCreateLen ≤ off) (eof : h.shEof = off + n) (less : n < h.cap) :
    readLengths h (spaHistoryLogToPhys off h) (spaHistoryLogToPhys h.shEof h) len =
      (min (min len n) (h.shPhysMaxOff - spaHistoryLogToPhys off h),
        min len n - min (min len n) (h.shPhysMaxOff - spaHistoryLogToPhys off h)) := by
  have max := keeps.max_eq
  obtain ⟨low, high⟩ := Ring.phys_lt h.shPoolCreateLen (Nat.zero_lt_of_lt less) off
  rw [eof, logToPhys_eq, logToPhys_eq, Ring.phys_add bof less]
  rw [readLengths, max]
  split_ifs with before same wraps
  all_goals
    simp only [Prod.mk.injEq]
    omega

theorem Keeps.get_content (more : created.length ≤ off)
    (place : max off h.shBof = h.shBof + k) (inside : k ≤ content.length) :
    spaHistoryGet h off len = (h.shBof + k + min len (content.length - k), min len (content.length - k),
      (content.drop k).take (min len (content.length - k))) := by
  have bof := keeps.bof
  have fits := keeps.fits
  have eof : h.shEof = h.shBof + k + (content.length - k) := by
    rw [keeps.eof]
    omega
  have lengths := keeps.readLengths_eq len (show h.shPoolCreateLen ≤ h.shBof + k by omega) eof (by omega)
  have read := (keeps.holds.drop k).read (by omega) (by simp; omega) (show min len (content.length - k) ≤ _ by simp)
  rw [Ring.read, ← keeps.max_eq, ← logToPhys_eq] at read
  have later : ¬off < h.shPoolCreateLen := by
    rw [keeps.create]
    omega
  have high : spaHistoryLogToPhys (h.shBof + k) h < h.shPhysMaxOff := by
    rw [keeps.max_eq]
    exact (Ring.phys_lt h.shPoolCreateLen (Nat.zero_lt_of_lt fits) _).2
  simp only [spaHistoryGet, if_neg later, place, lengths, dmuRead]
  rw [← read]
  generalize min len (content.length - k) = n
  refine Prod.ext ?_ (Prod.ext ?_ ?_)
  · dsimp only
    omega
  · dsimp only
    omega
  · dsimp only
    split_ifs with none rest
    · rw [show n = 0 by omega]
      rfl
    · rfl
    · rw [not_not.mp rest]
      simp [Ring.fetch]

end

inductive ReadTo (h : HistoryPhys) (created content : List UInt8) (off : ℕ) : ℕ → Prop
  | created : off < created.length → ReadTo h created content off off
  | content {k : ℕ} : created.length ≤ off → max off h.shBof = h.shBof + k → k ≤ content.length →
      ReadTo h created content off (created.length + k)

theorem ReadTo.get (reads : ReadTo h created content off done) (keeps : Keeps h created content) (some : 0 < len) :
    ∃ off' n, spaHistoryGet h off len = (off', n, ((created ++ content).drop done).take n) ∧
      ReadTo h created content off' (done + n) ∧ done + n ≤ (created ++ content).length ∧
      (n = 0 → done = (created ++ content).length) := by
  rw [length_append]
  have bof := keeps.bof
  have create := keeps.create
  cases reads with
  | created less =>
    refine ⟨off + min len (created.length - off), min len (created.length - off), ?_, ?_, by omega, by omega⟩
    · rw [keeps.get_created less some, drop_append_of_le_length less.le,
        take_append_of_le_length (by rw [length_drop]; omega)]
    · rcases lt_or_ge (off + min len (created.length - off)) created.length with inside | all
      · exact .created inside
      · have last : off + min len (created.length - off) = created.length + 0 := by omega
        rw [last]
        exact .content (by omega) (by omega) (Nat.zero_le _)
  | @content k more place inside =>
    refine ⟨h.shBof + k + min len (content.length - k), min len (content.length - k), ?_, ?_, by omega, by omega⟩
    · rw [keeps.get_content more place inside, drop_append, drop_eq_nil_of_le (Nat.le_add_right _ _),
        nil_append, Nat.add_sub_cancel_left]
    · rw [Nat.add_assoc created.length]
      exact .content (by omega) (by omega) (by omega)

theorem ReadTo.le (reads : ReadTo h created content off done) : done ≤ (created ++ content).length := by
  rw [length_append]
  cases reads <;> omega

theorem ReadTo.gets (reads : ReadTo h created content off done) (keeps : Keeps h created content)
    (sizes : List ℕ) (positive : ∀ len ∈ sizes, 0 < len) :
    ∃ n, (gets h off sizes).flatten = ((created ++ content).drop done).take n ∧
      done + n ≤ (created ++ content).length ∧
      (sizes.length ≤ n ∨ done + n = (created ++ content).length) ∧
      ([] ∈ gets h off sizes → done + n = (created ++ content).length) := by
  induction sizes generalizing off done with
  | nil => exact ⟨0, by simp [History.gets], reads.le, .inl le_rfl, fun none => absurd none not_mem_nil⟩
  | cons len sizes ih =>
    obtain ⟨off', n, got, reads', le, last⟩ := reads.get keeps (positive len mem_cons_self)
    obtain ⟨m, rest, le', enough, empty⟩ := ih reads' fun len other => positive len (mem_cons_of_mem _ other)
    simp only [History.gets, got, flatten_cons, rest, length_cons]
    refine ⟨n + m, ?_, by omega, by omega, fun none => ?_⟩
    · rw [take_add, drop_drop]
    · rcases mem_cons.mp none with first | later
      · have : n = 0 := by
          have length := congrArg List.length first
          simp only [length_nil, length_take, length_drop] at length
          omega
        omega
      · have := empty later
        omega

/-- After any sequence of records that fit, the records of the creation of the pool are where they were written, the
    log holds the last of the others whole, the lost ones are counted, the next record will be logged, and reads of any
    sizes give what there is in order. -/
theorem history_fifo {creates written : List (List UInt8)} (logged : Logged h creates written) :
    (∀ j, j < h.shPoolCreateLen → (creates.flatMap frame)[j]? = some (h.object j)) ∧
    h.shPoolCreateLen = (creates.flatMap frame).length ∧
    h.shRecordsLost ≤ written.length ∧
    h.shEof = h.shBof + ((written.drop h.shRecordsLost).flatMap frame).length ∧
    (∀ j, h.shBof + j < h.shEof →
      ((written.drop h.shRecordsLost).flatMap frame)[j]? = some (h.object (spaHistoryLogToPhys (h.shBof + j) h))) ∧
    (∀ logType recordPacked, Fits h recordPacked →
      (logType = .poolCreate → h.shEof = h.shPoolCreateLen) →
      (spaHistoryLogSync logType recordPacked h).isSome = true) ∧
    ∀ sizes : List ℕ, (∀ len ∈ sizes, 0 < len) →
      (gets h 0 sizes).flatten <+: creates.flatMap frame ++ (written.drop h.shRecordsLost).flatMap frame ∧
      ((creates.flatMap frame ++ (written.drop h.shRecordsLost).flatMap frame).length ≤ sizes.length ∨
          [] ∈ gets h 0 sizes →
        (gets h 0 sizes).flatten = creates.flatMap frame ++ (written.drop h.shRecordsLost).flatMap frame) := by
  obtain ⟨few, keeps⟩ := logged.queue
  have start : ReadTo h (creates.flatMap frame) ((written.drop h.shRecordsLost).flatMap frame) 0 0 := by
    rcases Nat.eq_zero_or_pos (creates.flatMap frame).length with none | some
    · have begins : ReadTo h (creates.flatMap frame) ((written.drop h.shRecordsLost).flatMap frame) 0
          ((creates.flatMap frame).length + 0) := .content none.le (by omega) (Nat.zero_le _)
      rwa [none] at begins
    · exact .created some
  refine ⟨fun j less => keeps.kept j (keeps.create ▸ less), keeps.create, few, keeps.eof, fun j less => ?_,
    fun logType recordPacked fits first => ?_, fun sizes positive => ?_⟩
  · exact keeps.holds j (by rw [keeps.eof] at less; omega)
  · by_cases kind : logType = .poolCreate
    · subst kind
      obtain ⟨h', done, _⟩ := logged.queue.poolCreate fits (first rfl)
      rw [done, Option.isSome_some]
    · obtain ⟨h', done, _⟩ := logged.queue.other fits kind
      rw [done, Option.isSome_some]
  · obtain ⟨n, all, le, enough, empty⟩ := start.gets keeps sizes positive
    rw [drop_zero] at all
    refine ⟨all ▸ take_prefix _ _, fun complete => ?_⟩
    rw [all, take_of_length_le]
    rcases complete with long | none
    · omega
    · have := empty none
      omega

/-- Two records of 70000 bytes in a log of 128K: the second wraps, and the first is lost. -/
theorem history_fifo_wraps :
    ∃ h, Logged h [[1, 2, 3]] [replicate 70000 4, replicate 70000 5] ∧ h.shRecordsLost = 1 ∧ h.shPhysMaxOff < h.shEof ∧
      (gets h 0 (replicate 70019 9)).flatten = frame [1, 2, 3] ++ frame (replicate 70000 5) := by
  obtain ⟨h₀, created, create, cap₀, end₀⟩ : ∃ h₀, spaHistoryLogSync .poolCreate [1, 2, 3] (spaHistoryCreateObj 0) =
      some h₀ ∧ h₀.shPoolCreateLen = 11 ∧ h₀.cap = 131061 ∧ h₀.shEof = 11 := ⟨_, rfl, rfl, rfl, rfl⟩
  have logged₀ : Logged h₀ [[1, 2, 3]] [] := .poolCreate (.createObj 0) (by simp [Fits, spaHistoryCreateObj]) created
  generalize old : replicate 70000 (4 : UInt8) = a
  generalize new : replicate 70000 (5 : UInt8) = b
  have lengthA : a.length = 70000 := by rw [← old, length_replicate]
  have lengthB : b.length = 70000 := by rw [← new, length_replicate]
  have normal : HistoryLogType.normal ≠ .poolCreate := by decide
  have fits₀ : Fits h₀ a := show a.length + 8 < h₀.cap by omega
  obtain ⟨h₁, first, _, cap₁, end₁, _⟩ := logged₀.queue.other fits₀ normal
  have logged₁ : Logged h₁ [[1, 2, 3]] [a] := .other logged₀ fits₀ normal first
  have fits₁ : Fits h₁ b := show b.length + 8 < h₁.cap by omega
  obtain ⟨h, second, kept, cap, stop, queue⟩ := logged₁.queue.other fits₁ normal
  have logged : Logged h [[1, 2, 3]] [a, b] := .other logged₁ fits₁ normal second
  have lost : h.shRecordsLost = 1 := by
    have fits := queue.keeps.fits
    -- with none lost, both would have to fit
    rcases Nat.eq_zero_or_pos h.shRecordsLost with none | some
    · rw [none] at fits
      simp [lengthA, lengthB] at fits
      omega
    · exact le_antisymm kept some
  have max := queue.keeps.max_eq
  have createLen := queue.keeps.create
  simp at createLen
  obtain ⟨_, _, _, _, _, _, reads⟩ := history_fifo logged
  have all := (reads (replicate 70019 9) fun len same => by rw [eq_of_mem_replicate same]; decide).2
  have left : [[1, 2, 3]].flatMap frame ++ (drop 1 [a, b]).flatMap frame = frame [1, 2, 3] ++ frame b := by simp
  rw [lost, left] at all
  exact ⟨h, logged, lost, by omega, all (.inl (by rw [length_replicate]; simp [lengthB]))⟩

end MacZfs.History
