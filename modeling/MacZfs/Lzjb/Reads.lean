import MacZfs.Lzjb.RoundTrip

/-! # What decompression touches

`lzjb_decompress` is given the length of the source and does not look at it: only the destination ends its loop. Every
item takes at most two bytes, and a byte of flags for eight items, and leaves at least one byte.
-/

namespace MacZfs.Lzjb

open BackReference Nat Set

variable {packed packed' dest : Bytes} {dLen items : ℕ}

/-- So many bytes are all that so many items can take. -/
def itemBytes (items : ℕ) : ℕ := 2 * items + (items + 7) / 8

/-- After so many items, and at most so many bytes. `out'` is the destination of a second run, over memory that is the
    same where it matters. -/
structure Reading (dLen flag bytes items : ℕ) (dest out' : Bytes) (d : Decompressing) : Prop where
  mask : d.copymask = 2 ^ flag
  src_le : d.src ≤ bytes
  items_le : items ≤ d.dst
  dst_le : d.dst ≤ dLen
  agree : EqOn d.out out' (Iio dLen)
  kept : ∀ x, dLen ≤ x → d.out x = dest x

theorem itemBytes_mono (le : a ≤ b) : itemBytes a ≤ itemBytes b := by
  rw [itemBytes, itemBytes]
  omega

variable (same : EqOn packed packed' (Iio (itemBytes dLen)))

include same

theorem Reading.flag (reading : Reading dLen ((items + 7) % 8) (itemBytes items) items dest out' d)
    (more : d.dst < dLen) (map : items ≠ 0 → copymap = d.copymap) :
    nextFlag packed' { d with copymap := copymap, out := out' } = { nextFlag packed d with out := out' } ∧
      (nextFlag packed d).dst < dLen ∧
      Reading dLen (items % 8) (itemBytes (items + 1) - 2) items dest out' (nextFlag packed d) := by
  obtain ⟨mask, src_le, items_le, dst_le, agree, kept⟩ := reading
  have bytes := itemBytes_mono (show items + 1 ≤ dLen by omega)
  rw [itemBytes] at src_le bytes
  simp only [nextFlag, mask, last_flag]
  split
  next last =>
    have read : packed d.src = packed' d.src := same (mem_Iio.mpr (by omega))
    have first : items % 8 = 0 := by omega
    refine ⟨by rw [read], more, by rw [first, Nat.pow_zero], ?_, items_le, dst_le, agree, kept⟩
    rw [itemBytes]
    dsimp only
    omega
  next inside =>
    have flag : (items + 7) % 8 + 1 = items % 8 := by omega
    refine ⟨by rw [map (by omega)], more, ?_, ?_, items_le, dst_le, agree, kept⟩
    · rw [← flag, Nat.pow_succ, shiftLeft_eq, Nat.pow_one]
    · rw [itemBytes]
      dsimp only
      omega

theorem Reading.item (reading : Reading dLen (items % 8) (itemBytes (items + 1) - 2) items dest out' d)
    (more : d.dst < dLen) :
    ∃ out'', nextItem packed' dLen { d with out := out' } =
        (nextItem packed dLen d).map (fun d' => { d' with out := out'' }) ∧
      ∀ d' ∈ nextItem packed dLen d,
        Reading dLen ((items + 1 + 7) % 8) (itemBytes (items + 1)) (items + 1) dest out'' d' := by
  obtain ⟨mask, src_le, items_le, -, agree, kept⟩ := reading
  have bytes := itemBytes_mono (show items + 1 ≤ dLen by omega)
  have two : 2 ≤ itemBytes (items + 1) := by rw [itemBytes]; omega
  have first : packed d.src = packed' d.src := same (mem_Iio.mpr (by omega))
  have second : packed (d.src + 1) = packed' (d.src + 1) := same (mem_Iio.mpr (by omega))
  rw [← Nat.add_mod_right items 8] at mask
  simp only [nextItem, ← first, ← second]
  split
  · split
    · exact ⟨out', rfl, fun d' none => by cases none⟩
    · have least : matchMin = 3 := rfl
      generalize (packed d.src).toNat >>> (nbby - matchBits) = extra
      refine ⟨_, rfl, fun d' done => ?_⟩
      cases done
      refine ⟨mask, ?_, ?_, ?_, copyBack_congr agree (by omega), fun x beyond => ?_⟩
      all_goals dsimp only
      · omega
      · omega
      · omega
      · exact (copyBack_of_le (by omega)).trans (kept x beyond)
  · refine ⟨_, rfl, fun d' done => ?_⟩
    cases done
    refine ⟨mask, ?_, Nat.succ_le_succ items_le, more, update_congr agree _, fun x beyond => ?_⟩
    · dsimp only
      omega
    · exact (Function.update_of_ne (by omega) _ _).trans (kept x beyond)

theorem decompressLoop_congr (turns : ℕ) (map : items ≠ 0 → copymap = d.copymap)
    (reading : Reading dLen ((items + 7) % 8) (itemBytes items) items dest out' d) :
    (decompressLoop packed dLen turns d).1 =
        (decompressLoop packed' dLen turns { d with copymap := copymap, out := out' }).1 ∧
      EqOn (decompressLoop packed dLen turns d).2
        (decompressLoop packed' dLen turns { d with copymap := copymap, out := out' }).2 (Iio dLen) ∧
      ∀ x, dLen ≤ x → (decompressLoop packed dLen turns d).2 x = dest x := by
  induction turns generalizing items out' d copymap with
  | zero => exact ⟨rfl, reading.agree, reading.kept⟩
  | succ turns ih =>
    simp only [decompressLoop]
    split
    next more =>
      obtain ⟨flag, more', flagged⟩ := reading.flag same more map
      obtain ⟨out'', item, after⟩ := flagged.item same more'
      rw [flag, item]
      cases done : nextItem packed dLen (nextFlag packed d) with
      | none => exact ⟨rfl, reading.agree, reading.kept⟩
      | some d' => exact ih (fun _ => rfl) (after d' done)
    next => exact ⟨rfl, reading.agree, reading.kept⟩

omit same

theorem lzjb_decompress_reads (copymap copymap' : UInt8) {dest dest' : Bytes}
    (same : ∀ x, x < 2 * dLen + (dLen + 7) / 8 → packed x = packed' x) (before : ∀ x, x < dLen → dest x = dest' x) :
    (lzjbDecompress packed dLen copymap dest).1 = (lzjbDecompress packed' dLen copymap' dest').1 ∧
      (∀ x, x < dLen →
        (lzjbDecompress packed dLen copymap dest).2 x = (lzjbDecompress packed' dLen copymap' dest').2 x) ∧
      ∀ x, dLen ≤ x → (lzjbDecompress packed dLen copymap dest).2 x = dest x := by
  have start : Reading dLen 7 0 0 dest dest'
      { src := 0, dst := 0, copymap := copymap, copymask := 1 <<< (nbby - 1), out := dest } :=
    ⟨rfl, le_rfl, le_rfl, Nat.zero_le _, fun x less => before x less, fun _ _ => rfl⟩
  exact decompressLoop_congr (fun x less => same x less) (dLen + 1) (fun not => absurd rfl not) start

/-- A literal and a copy of it, with other bytes behind what is read. -/
def literalAndCopy (behind : UInt8) : Bytes
  | 0 => 2
  | 1 => 7
  | 2 => 8
  | 3 => 1
  | x => if x < 13 then 0 else behind

theorem lzjb_decompress_reads_copy :
    (lzjbDecompress (literalAndCopy 0) 6 0 fun _ => 0).1 = (lzjbDecompress (literalAndCopy 9) 6 5 fun _ => 0).1 ∧
      ∀ x, x < 6 → (lzjbDecompress (literalAndCopy 0) 6 0 fun _ => 0).2 x = 7 ∧
        (lzjbDecompress (literalAndCopy 9) 6 5 fun _ => 0).2 x = 7 := by
  have agree : ∀ x, x < 2 * 6 + (6 + 7) / 8 → literalAndCopy 0 x = literalAndCopy 9 x := by decide
  obtain ⟨code, bytes, _⟩ := lzjb_decompress_reads 0 5 agree fun _ _ => rfl
  have copied : ∀ x, x < 6 → (lzjbDecompress (literalAndCopy 0) 6 0 fun _ => 0).2 x = 7 := by decide
  exact ⟨code, fun x less => ⟨copied x less, (bytes x less).symm.trans (copied x less)⟩⟩

/-- Sources that agree on the one byte of their length, and destinations that differ where a copy of distance 0 reads. -/
theorem lzjb_decompress_reads_on :
    (∃ packed packed' : Bytes, (∀ x, x < 1 → packed x = packed' x) ∧
      (lzjbDecompress packed 1 0 fun _ => 0).2 0 ≠ (lzjbDecompress packed' 1 0 fun _ => 0).2 0) ∧
    ∃ packed dest dest' : Bytes,
      (lzjbDecompress packed 1 0 dest).2 0 ≠ (lzjbDecompress packed 1 0 dest').2 0 := by
  constructor
  · exact ⟨fun _ => 0, fun x => if x < 1 then 0 else 1, fun x less => (if_pos less).symm, by decide⟩
  · exact ⟨fun x => if x < 1 then 1 else 0, fun _ => 0, fun _ => 1, by decide⟩

end MacZfs.Lzjb
