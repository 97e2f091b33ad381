import MacZfs.Lzjb.Basic

/-! # What is compressed comes back

Both functions go through a compressed buffer item by item. `Coded` says how far a reader has come, in the buffer and in
the source; compression writes such a buffer, whatever its table held, and decompression follows it.
-/

namespace MacZfs.Lzjb

open Function Nat BackReference UInt8

/-! ## Compressed buffers -/

/-- A reader that has used flag `flag` of the byte at `map` goes on with the next flag: which flag, of which byte, and
    where the item begins. -/
def advance (flag map place : ℕ) : ℕ × ℕ × ℕ := if flag = 7 then (0, place, place + 1) else (flag + 1, map, place)

inductive Item (source packed : Bytes) (flag map place i : ℕ) : ℕ → ℕ → Prop
  | literal : (packed map).toNat.testBit flag = false → packed place = source i →
      Item source packed flag map place i (place + 1) (i + 1)
  | reference {mlen offset : ℕ} : (packed map).toNat.testBit flag = true → matchMin ≤ mlen → mlen ≤ matchMax →
      0 < offset → offset ≤ i → offset ≤ offsetMask →
      packed place = UInt8.ofNat (((mlen - matchMin) <<< (nbby - matchBits)) ||| (offset >>> nbby)) →
      packed (place + 1) = UInt8.ofNat offset → Repeats source offset i mlen →
      Item source packed flag map place i (place + 2) (i + mlen)

/-- A reader of `packed` that has given the first `i` bytes of `source` can have come to `place`, with flag `flag` of the
    byte at `map` used last. -/
inductive Coded (source packed : Bytes) : ℕ → ℕ → ℕ → ℕ → Prop
  | start : Coded source packed 7 0 0 0
  | item {flag map place i flag' map' place' stop i' : ℕ} : Coded source packed flag map place i →
      advance flag map place = (flag', map', place') → Item source packed flag' map' place' i stop i' →
      Coded source packed flag' map' stop i'

section Coded

variable {packed : Bytes} {flag map place stop : ℕ}

theorem Item.place_lt (item : Item source packed flag map place i stop i') : place < stop ∧ i < i' := by
  cases item with
  | literal => omega
  | reference _ least =>
    have : 3 ≤ _ := least
    omega

theorem advance_cases (next : advance flag map place = (flag', map', place')) :
    flag = 7 ∧ flag' = 0 ∧ map' = place ∧ place' = place + 1 ∨
      flag ≠ 7 ∧ flag' = flag + 1 ∧ map' = map ∧ place' = place := by
  rw [advance] at next
  split_ifs at next with last
  all_goals
    simp only [Prod.mk.injEq] at next
    omega

theorem Item.congr (item : Item source packed flag map place i stop i')
    (bit : (packed' map).toNat.testBit flag = (packed map).toNat.testBit flag)
    (same : ∀ x, place ≤ x → x < stop → packed' x = packed x) : Item source packed' flag map place i stop i' := by
  cases item with
  | literal unset byte =>
    exact .literal (bit.trans unset) ((same place le_rfl (by omega)).trans byte)
  | reference set least most positive le small first second repeats =>
    exact .reference (bit.trans set) least most positive le small ((same place le_rfl (by omega)).trans first)
      ((same (place + 1) (by omega) (by omega)).trans second) repeats

theorem Coded.map_lt (coded : Coded source packed flag map place i) :
    flag ≤ 7 ∧ (flag = 7 ∧ place = 0 ∧ i = 0 ∨ map < place) := by
  induction coded with
  | start => exact ⟨le_rfl, .inl ⟨rfl, rfl, rfl⟩⟩
  | item coded next item ih =>
    have less := item.place_lt.1
    rcases advance_cases next with ⟨rfl, rfl, rfl, rfl⟩ | ⟨_, rfl, rfl, rfl⟩
    · exact ⟨by omega, .inr (by omega)⟩
    · exact ⟨by omega, .inr (by omega)⟩

/-- Neither what lies beyond nor the flags that are still to come matter. -/
theorem Coded.congr (coded : Coded source packed flag map place i)
    (bits : map < place → ∀ b ≤ flag, (packed' map).toNat.testBit b = (packed map).toNat.testBit b)
    (same : ∀ x < place, x ≠ map → packed' x = packed x) : Coded source packed' flag map place i := by
  induction coded with
  | start => exact .start
  | @item flag map place i flag' map' place' stop i' coded next item ih =>
    have less := item.place_lt.1
    rcases advance_cases next with ⟨rfl, rfl, rfl, rfl⟩ | ⟨inside, rfl, rfl, rfl⟩
    · refine .item (ih (fun before b _ => ?_) fun x before _ => same x (by omega) (by omega)) next
        (item.congr (bits (by omega) 0 le_rfl) fun x first last => same x last (by omega))
      rw [same map (by omega) (by omega)]
    · have read := coded.map_lt.2.resolve_left fun start => inside start.1
      exact .item (ih (fun _ b le => bits (by omega) b (by omega)) fun x before => same x (by omega)) next
        (item.congr (bits (by omega) _ le_rfl) fun x first last => same x last (by omega))

end Coded

/-! ## Decompression -/

section Decompress

variable {packed : Bytes} {flag map place stop : ℕ}

theorem flag_set (x : UInt8) (flag) : x.toNat &&& 2 ^ flag ≠ 0 ↔ x.toNat.testBit flag = true := by
  rw [and_two_pow]
  cases x.toNat.testBit flag <;> simp

theorem reference_bytes (least : matchMin ≤ mlen) (most : mlen ≤ matchMax) (small : offset ≤ offsetMask) :
    ((ofNat (((mlen - matchMin) <<< (nbby - matchBits)) ||| (offset >>> nbby))).toNat >>> (nbby - matchBits)) +
        matchMin = mlen ∧
      (((ofNat (((mlen - matchMin) <<< (nbby - matchBits)) ||| (offset >>> nbby))).toNat <<< nbby) |||
        (ofNat offset).toNat) &&& offsetMask = offset := by
  obtain ⟨k, rfl⟩ := Nat.exists_eq_add_of_le least
  have few : k < 64 := by
    have : 3 + k ≤ 66 := most
    omega
  have near : offset < 1024 := by
    have : offset ≤ 1023 := small
    omega
  have first : (matchMin + k - matchMin) <<< (nbby - matchBits) ||| offset >>> nbby = 4 * k + offset / 256 := by
    have high : offset >>> nbby < 2 ^ (nbby - matchBits) := by
      rw [shiftRight_eq_div_pow]
      exact Nat.div_lt_of_lt_mul near
    rw [Nat.add_sub_cancel_left, ← shiftLeft_add_eq_or_of_lt high, shiftLeft_eq, shiftRight_eq_div_pow, Nat.mul_comm]
    rfl
  have whole : (ofNat (4 * k + offset / 256)).toNat = 4 * k + offset / 256 := by
    rw [toNat_ofNat']
    omega
  have mask : offsetMask = 2 ^ 10 - 1 := rfl
  rw [first, whole, toNat_ofNat']
  constructor
  · rw [shiftRight_eq_div_pow]
    simp only [nbby, matchBits, matchMin]
    omega
  · have low : offset % 2 ^ 8 < 2 ^ nbby := mod_lt _ (by decide)
    rw [← shiftLeft_add_eq_or_of_lt low, mask, and_two_pow_sub_one_eq_mod, shiftLeft_eq]
    simp only [nbby]
    omega

structure Follows (source packed dest : Bytes) (flag map place i : ℕ) (d : Decompressing) : Prop where
  src : d.src = place
  dst : d.dst = i
  mask : d.copymask = 2 ^ flag
  map : flag ≠ 7 → d.copymap = packed map
  restored : Restored source d.out i
  rest : ∀ x, i ≤ x → d.out x = dest x

theorem last_flag : 2 ^ flag <<< 1 = 1 <<< nbby ↔ flag = 7 := by
  rw [nbby, one_shiftLeft, shiftLeft_eq, ← Nat.pow_succ, Nat.pow_right_inj (by decide)]
  omega

section

variable (follows : Follows source packed dest flag map place i d) (next : advance flag map place = (flag', map', place'))

include follows next

theorem Follows.flagged :
    nextFlag packed d = { d with src := place', copymask := 2 ^ flag', copymap := packed map' } := by
  rw [nextFlag, follows.mask]
  rcases advance_cases next with ⟨rfl, rfl, rfl, rfl⟩ | ⟨inside, rfl, rfl, rfl⟩
  · rw [if_pos (last_flag.mpr rfl), follows.src]
    rfl
  · rw [if_neg fun last => inside (last_flag.mp last), ← follows.src, ← follows.map inside, Nat.pow_succ,
      shiftLeft_eq]

theorem Follows.step (item : Item source packed flag' map' place' i stop i') (room : i' ≤ dLen) :
    ∃ d', nextItem packed dLen (nextFlag packed d) = some d' ∧ Follows source packed dest flag' map' stop i' d' := by
  rw [follows.flagged next, nextItem]
  simp only [flag_set, follows.dst]
  cases item with
  | literal unset byte =>
    rw [unset, if_neg (by decide), byte]
    refine ⟨_, rfl, rfl, rfl, rfl, fun _ => rfl, follows.restored.update, fun x beyond => ?_⟩
    exact (update_of_ne (by omega) _ _).trans (follows.rest x (by omega))
  | @reference mlen offset set least most positive before small first second repeats =>
    obtain ⟨length, distance⟩ := reference_bytes least most small
    rw [set, if_pos rfl, first, second, length, distance, if_neg (by omega), min_eq_left (by omega)]
    refine ⟨_, rfl, rfl, rfl, rfl, fun _ => rfl, follows.restored.copyBack positive before repeats, fun x beyond => ?_⟩
    exact (copyBack_of_le beyond).trans (follows.rest x (by omega))

end

theorem Coded.follows (coded : Coded source packed flag map place i) (room : i ≤ dLen)
    (start : Follows source packed dest 7 0 0 0 d) :
    ∃ n d', n ≤ i ∧ Follows source packed dest flag map place i d' ∧
      ∀ m, decompressLoop packed dLen (n + m) d = decompressLoop packed dLen m d' := by
  induction coded with
  | start => exact ⟨0, d, le_rfl, start, fun m => by rw [zero_add]⟩
  | item coded next item ih =>
    have more := item.place_lt.2
    obtain ⟨n, before, few, follows, turns⟩ := ih (by omega)
    obtain ⟨after, one, follows'⟩ := follows.step next item room
    refine ⟨n + 1, after, by omega, follows', fun m => ?_⟩
    rw [show n + 1 + m = n + (m + 1) by ring, turns, decompressLoop, follows.dst, if_pos (by omega), one]

theorem Coded.decompress (coded : Coded source packed flag map place dLen) (copymap : UInt8) (dest) :
    ∃ out, lzjbDecompress packed dLen copymap dest = (0, out) ∧ Restored source out dLen ∧
      ∀ x, dLen ≤ x → out x = dest x := by
  have start : Follows source packed dest 7 0 0 0
      { src := 0, dst := 0, copymap := copymap, copymask := 1 <<< (nbby - 1), out := dest } :=
    ⟨rfl, rfl, rfl, fun not => absurd rfl not, fun x none => absurd none (not_lt_zero x), fun _ _ => rfl⟩
  obtain ⟨n, d, few, follows, turns⟩ := coded.follows le_rfl start
  refine ⟨d.out, ?_, follows.restored, follows.rest⟩
  rw [lzjbDecompress, show dLen + 1 = n + (dLen - n + 1) by omega, turns, decompressLoop, follows.dst,
    if_neg (lt_irrefl _)]

end Decompress

/-! ## Compression -/

section Compress

variable {flag map place : ℕ}

/-- A compression between two items: `out` is compressed up to `dst`, and `flag` was used last. -/
structure Writes (source dest : Bytes) (sLen dLen flag : ℕ) (c : Compressing) : Prop where
  coded : Coded source c.out flag c.copymap c.dst c.src
  mask : c.copymask = 2 ^ flag
  clear : 0 < c.dst → ∀ b, flag < b → (c.out c.copymap).toNat.testBit b = false
  fits : 0 < c.dst → c.dst ≤ c.copymap + 1 + 2 * (flag + 1) ∧ c.copymap + 1 + 2 * nbby < dLen
  rest : ∀ x, c.dst ≤ x → c.out x = dest x
  inside : c.src ≤ sLen

structure Opened (source dest : Bytes) (dLen flag map place flag' : ℕ) (c : Compressing) : Prop where
  coded : Coded source c.out flag map place c.src
  next : advance flag map place = (flag', c.copymap, c.dst)
  mask : c.copymask = 2 ^ flag'
  clear : ∀ b, flag' ≤ b → (c.out c.copymap).toNat.testBit b = false
  before : c.copymap < c.dst
  fits : c.dst ≤ c.copymap + 1 + 2 * flag' ∧ c.copymap + 1 + 2 * nbby < dLen
  rest : ∀ x, c.dst ≤ x → c.out x = dest x

theorem Writes.opens (writes : Writes source dest sLen dLen flag c) (opened : control dLen c = some c') :
    (∃ flag', Opened source dest dLen flag c.copymap c.dst flag' c') ∧ c'.src = c.src := by
  obtain ⟨coded, mask, clear, fits, rest, _⟩ := writes
  rw [control, mask] at opened
  simp only [last_flag] at opened
  split_ifs at opened with last full
  · obtain rfl := Option.some.inj opened
    subst last
    refine ⟨⟨0, coded.congr ?_ ?_, by simp [advance], rfl, ?_, lt_succ_self _, ⟨le_rfl, by simpa using full⟩, ?_⟩, rfl⟩
    · intro read b _
      simp [update_of_ne read.ne]
    · intro x before _
      exact update_of_ne before.ne _ _
    · intro b _
      simp
    · intro x beyond
      exact (update_of_ne (by simp at beyond; omega) _ _).trans (rest x (by simp at beyond; omega))
  · obtain rfl := Option.some.inj opened
    have read := coded.map_lt.2.resolve_left fun start => last start.1
    have started := zero_lt_of_lt read
    refine ⟨⟨flag + 1, coded, by simp [advance, last], by simp [shiftLeft_eq, pow_succ], fun b more => ?_, read,
      fits started, rest⟩, rfl⟩
    exact clear started b more

/-- The item before is not touched by what is written from `dst` on. -/
theorem Opened.place_le (opened : Opened source dest dLen flag map place flag' c) : place ≤ c.dst := by
  rcases advance_cases opened.next with ⟨_, _, _, same⟩ | ⟨_, _, _, same⟩
  all_goals omega

theorem Opened.plain (opened : Opened source dest dLen flag map place flag' c) (more : c.src < sLen) :
    Writes source dest sLen dLen flag' (literal source c) := by
  have old := opened.place_le
  have before := opened.before
  have unset : (literal source c).out (literal source c).copymap = c.out c.copymap :=
    update_of_ne before.ne _ _
  refine ⟨.item (opened.coded.congr ?_ ?_) opened.next (.literal ?_ (update_self ..)), opened.mask, ?_, ?_, ?_, more⟩
  · intro read b _
    simp [literal, update_of_ne (show map ≠ c.dst by omega)]
  · intro x less _
    exact update_of_ne (by omega) _ _
  · rw [unset]
    exact opened.clear flag' le_rfl
  · intro _ b later
    rw [unset]
    exact opened.clear b later.le
  · intro _
    have fits := opened.fits
    simp only [literal]
    omega
  · intro x beyond
    have beyond : c.dst + 1 ≤ x := beyond
    exact (update_of_ne (by omega) _ _).trans (opened.rest x (by omega))

theorem matchLength_spec (source) (src cpy n mlen : ℕ) :
    mlen ≤ matchLength source src cpy n mlen ∧ matchLength source src cpy n mlen ≤ mlen + n ∧
      ∀ j, mlen ≤ j → j < matchLength source src cpy n mlen → source (src + j) = source (cpy + j) := by
  induction n generalizing mlen with
  | zero => exact ⟨le_rfl, le_rfl, fun j first last => absurd first (not_le.mpr last)⟩
  | succ n ih =>
    rw [matchLength]
    split_ifs with differs
    · exact ⟨le_rfl, by omega, fun j first last => absurd first (not_le.mpr last)⟩
    · obtain ⟨least, most, same⟩ := ih (mlen + 1)
      refine ⟨by omega, by omega, fun j first last => ?_⟩
      rcases eq_or_lt_of_le first with rfl | later
      · exact not_not.mp differs
      · exact same j later last

theorem setFlag_testBit (x : UInt8) (le : flag' ≤ 7) (b : ℕ) :
    (ofNat (x.toNat ||| 2 ^ flag')).toNat.testBit b = (x.toNat.testBit b || decide (flag' = b)) := by
  have small : x.toNat ||| 2 ^ flag' < 2 ^ 8 :=
    or_lt_two_pow x.toNat_lt (Nat.pow_lt_pow_right (by decide) (by omega))
  rw [toNat_ofNat', mod_eq_of_lt small, testBit_or, testBit_two_pow]

section

variable (opened : Opened source dest dLen flag map place flag' c)

include opened

theorem Opened.flag_le : flag' ≤ 7 := by
  have le := opened.coded.map_lt.1
  rcases advance_cases opened.next with ⟨_, same, _⟩ | ⟨_, same, _⟩
  all_goals omega

theorem Opened.refer
    (room : c.src + matchMax ≤ sLen) (le : offset ≤ c.src) (positive : offset ≠ 0) (small : offset ≤ offsetMask)
    (first : source c.src = source (c.src - offset)) (second : source (c.src + 1) = source (c.src - offset + 1))
    (third : source (c.src + 2) = source (c.src - offset + 2)) :
    Writes source dest sLen dLen flag' (reference source c offset) := by
  have old := opened.place_le
  have before := opened.before
  have few := opened.flag_le
  obtain ⟨least, most, same⟩ := matchLength_spec source c.src (c.src - offset) (matchMax - matchMin) matchMin
  have repeats : Repeats source offset c.src
      (matchLength source c.src (c.src - offset) (matchMax - matchMin) matchMin) := by
    intro j less
    rw [show c.src + j - offset = c.src - offset + j by omega]
    rcases lt_or_ge j matchMin with early | later
    · have early : j < 3 := early
      interval_cases j
      · exact first
      · exact second
      · exact third
    · exact same j later less
  have outside : ∀ x ≠ c.copymap, x < c.dst → (reference source c offset).out x = c.out x := by
    intro x other less
    simp only [reference]
    rw [update_of_ne (by omega), update_of_ne (by omega), update_of_ne other]
  have flags : ∀ b, ((reference source c offset).out c.copymap).toNat.testBit b =
      ((c.out c.copymap).toNat.testBit b || decide (flag' = b)) := by
    intro b
    simp only [reference]
    rw [update_of_ne (by omega), update_of_ne (by omega), update_self, opened.mask, setFlag_testBit _ few]
  refine ⟨.item (opened.coded.congr ?_ ?_) opened.next (.reference ?_ least most (pos_of_ne_zero positive)
    le small ?_ (update_self ..) repeats), opened.mask, ?_, ?_, ?_, ?_⟩
  · intro read b used
    by_cases same : map = c.copymap
    · have later : flag' ≠ b := by
        rcases advance_cases opened.next with ⟨_, _, _, _⟩ | ⟨_, _, _, _⟩
        all_goals omega
      rw [same, flags b, decide_eq_false later, Bool.or_false]
    · rw [outside map same (by omega)]
  · intro x less other
    refine outside x ?_ (by omega)
    rcases advance_cases opened.next with ⟨_, _, _, _⟩ | ⟨_, _, _, _⟩
    all_goals omega
  · exact (flags flag').trans (by simp)
  · exact (update_of_ne (by omega) _ _).trans (update_self ..)
  · intro _ b later
    refine (flags b).trans ?_
    rw [opened.clear b later.le, decide_eq_false later.ne]
    rfl
  · intro _
    have fits := opened.fits
    simp only [reference]
    omega
  · intro x beyond
    have beyond : c.dst + 2 ≤ x := beyond
    simp only [reference]
    rw [update_of_ne (by omega), update_of_ne (by omega), update_of_ne (by omega)]
    exact opened.rest x (by omega)
  · have longest : matchMin + (matchMax - matchMin) = matchMax := rfl
    simp only [reference]
    omega

theorem Opened.item (more : c.src < sLen) : Writes source dest sLen dLen flag' (item source sStart sLen c) := by
  have noted : ∀ lempel, Opened source dest dLen flag map place flag' { c with lempel := lempel } := fun _ =>
    ⟨opened.coded, opened.next, opened.mask, opened.clear, opened.before, opened.fits, opened.rest⟩
  rw [Lzjb.item]
  split_ifs with tail
  · exact opened.plain more
  · dsimp only
    split_ifs with match_
    · obtain ⟨le, positive, first, second, third⟩ := match_
      exact (noted _).refer (not_lt.mp tail) le positive and_le_right first second third
    · exact (noted _).plain more

end

theorem item_src (source) (sStart sLen : ℕ) (c) : c.src < (item source sStart sLen c).src := by
  have longer : ∀ offset, c.src < c.src + matchLength source c.src (c.src - offset) (matchMax - matchMin) matchMin :=
    fun offset => Nat.lt_add_of_pos_right (lt_of_lt_of_le (by decide) (matchLength_spec source _ _ _ _).1)
  rw [item]
  split_ifs with tail
  · exact lt_succ_self _
  · dsimp only
    split_ifs with match_
    · exact longer _
    · exact lt_succ_self _

theorem Writes.run (writes : Writes source dest sLen dLen flag c) (n : ℕ) (enough : sLen - c.src < n) :
    (compressLoop source sStart sLen dLen n c).1 = sLen ∨
      ∃ flag map, Coded source (compressLoop source sStart sLen dLen n c).2 flag map
          (compressLoop source sStart sLen dLen n c).1 sLen ∧
        (compressLoop source sStart sLen dLen n c).1 ≤ dLen ∧
        ∀ x, (compressLoop source sStart sLen dLen n c).1 ≤ x →
          (compressLoop source sStart sLen dLen n c).2 x = dest x := by
  induction n generalizing flag c with
  | zero => omega
  | succ n ih =>
    have inside := writes.inside
    rw [compressLoop]
    by_cases more : c.src < sLen
    · rw [if_pos more]
      cases opened : control dLen c with
      | none =>
        split_ifs <;> exact .inl rfl
      | some c' =>
        obtain ⟨⟨flag', opened⟩, same⟩ := writes.opens opened
        have further := item_src source sStart sLen c'
        exact ih (opened.item (same ▸ more)) (by omega)
    · rw [if_neg more]
      have done : c.src = sLen := by omega
      refine .inr ⟨flag, c.copymap, done ▸ writes.coded, ?_, writes.rest⟩
      rcases Nat.eq_zero_or_pos c.dst with none | some
      · exact none ▸ Nat.zero_le _
      · have fits := writes.fits some
        have le := writes.coded.map_lt.1
        have : nbby = 8 := rfl
        omega

theorem lzjbCompress_coded (lempel : ℕ → UInt16)
    (smaller : (lzjbCompress source sStart sLen dLen lempel dest).1 < sLen) :
    ∃ flag map, Coded source (lzjbCompress source sStart sLen dLen lempel dest).2 flag map
        (lzjbCompress source sStart sLen dLen lempel dest).1 sLen ∧
      (lzjbCompress source sStart sLen dLen lempel dest).1 ≤ dLen ∧
      ∀ x, (lzjbCompress source sStart sLen dLen lempel dest).1 ≤ x →
        (lzjbCompress source sStart sLen dLen lempel dest).2 x = dest x := by
  have start : Writes source dest sLen dLen 7
      { src := 0, dst := 0, copymap := 0, copymask := 1 <<< (nbby - 1), lempel := lempel, out := dest } :=
    ⟨.start, rfl, fun some => absurd some (lt_irrefl 0), fun some => absurd some (lt_irrefl 0), fun _ _ => rfl,
      zero_le _⟩
  exact (start.run (sLen + 1) (by simp)).resolve_left smaller.ne

end Compress

/-! ## Round trips -/

/-- What only the bytes up to `place` decide. -/
theorem Coded.of_agree {source packed packed' flag map place i} (coded : Coded source packed flag map place i)
    (agree : ∀ x < place, packed' x = packed x) : Coded source packed' flag map place i :=
  coded.congr (fun read _ _ => by rw [agree map read]) fun x less _ => agree x less

theorem destbufsize_lt (some : p2align (srcsize - srcsize >>> 3) spaMinblocksize ≠ 0) :
    p2align (srcsize - srcsize >>> 3) spaMinblocksize < srcsize := by
  have le : p2align (srcsize - srcsize >>> 3) spaMinblocksize ≤ srcsize - srcsize >>> 3 := Nat.sub_le _ _
  rcases lt_or_ge srcsize 8 with tiny | large
  · refine absurd ?_ some
    interval_cases srcsize <;> decide
  · omega

/-- If compression makes a buffer smaller, it keeps to the destination and writes no more than it says; and what starts
    with its output, as a block that `zio_compress_data` has padded does, is decompressed to the source. -/
theorem lzjb_restores (source : Bytes) (sStart sLen dLen : ℕ) (lempel : ℕ → UInt16) (dest : Bytes) :
    ((lzjbCompress source sStart sLen dLen lempel dest).1 < sLen →
      (lzjbCompress source sStart sLen dLen lempel dest).1 ≤ dLen ∧
      (∀ x, (lzjbCompress source sStart sLen dLen lempel dest).1 ≤ x →
        (lzjbCompress source sStart sLen dLen lempel dest).2 x = dest x) ∧
      ∀ packed : Bytes, (∀ x, x < (lzjbCompress source sStart sLen dLen lempel dest).1 →
          packed x = (lzjbCompress source sStart sLen dLen lempel dest).2 x) →
        ∀ copymap target, ∃ restored, lzjbDecompress packed sLen copymap target = (0, restored) ∧
          (∀ x, x < sLen → restored x = source x) ∧ ∀ x, sLen ≤ x → restored x = target x) ∧
    ∀ packed destsize destbufsize,
      zioCompressData (fun size => lzjbCompress source sStart sLen size lempel) source sLen dest =
        .smaller packed destsize destbufsize →
      ∀ copymap target, ∃ restored, lzjbDecompress packed sLen copymap target = (0, restored) ∧
        ∀ x, x < sLen → restored x = source x := by
  constructor
  · intro smaller
    obtain ⟨flag, map, coded, fits, rest⟩ := lzjbCompress_coded lempel smaller
    exact ⟨fits, rest, fun packed agree => (coded.of_agree agree).decompress⟩
  · intro packed destsize destbufsize block copymap target
    rw [zioCompressData] at block
    split at block
    next => cases block
    next =>
      dsimp only at block
      split_ifs at block with empty large
      have smaller := lt_of_le_of_lt (not_lt.mp large) (destbufsize_lt empty)
      obtain ⟨flag, map, coded, _, _⟩ := lzjbCompress_coded lempel smaller
      have padded : Coded source packed flag map _ sLen := coded.of_agree fun x less => by
        rw [← (Compressed.smaller.inj block).1]
        exact if_neg fun gap => absurd less (not_lt.mpr gap.1)
      obtain ⟨restored, done, same, _⟩ := padded.decompress copymap target
      exact ⟨restored, done, same⟩

/-- Some bytes, followed by many that are all the same, on their way through both functions. -/
theorem lzjb_restores_run :
    (lzjbCompress (fun x => if x < 5 then 1 else 7) 4096 128 100 (fun _ => 0) fun _ => 0).1 = 70 ∧
      ∃ restored, lzjbDecompress
          (lzjbCompress (fun x => if x < 5 then 1 else 7) 4096 128 100 (fun _ => 0) fun _ => 0).2 128 0 (fun _ => 0) =
            (0, restored) ∧ ∀ x, x < 128 → restored x = if x < 5 then 1 else 7 := by
  have size : (lzjbCompress (fun x => if x < 5 then 1 else 7) 4096 128 100 (fun _ => 0) fun _ => 0).1 = 70 := by
    decide +kernel
  obtain ⟨_, _, back⟩ := (lzjb_restores (fun x => if x < 5 then 1 else 7) 4096 128 100 (fun _ => 0) fun _ => 0).1
    (by rw [size]; decide)
  obtain ⟨restored, done, same, _⟩ := back _ (fun _ _ => rfl) 0 fun _ => 0
  exact ⟨size, restored, done, same⟩

end MacZfs.Lzjb
