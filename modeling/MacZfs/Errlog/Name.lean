import MacZfs.Base

/-!
# Names in the error log

The error log on disk is a ZAP object whose keys are bookmarks in a string form. A bookmark is
written with `bookmark_to_name` when an error list is synced and read back with `name_to_bookmark`
when the log is reported.
-/

namespace MacZfs.Errlog

open List

/-- `zbookmark_t`. Object numbers are below `DN_MAX_OBJECT`, and a level fits into an `int`. -/
structure Zbookmark where
  zbObjset : ℕ
  zbObject : ℕ
  zbLevel : ℤ
  zbBlkid : ℕ
  objset_lt : zbObjset < 2 ^ 48
  object_lt : zbObject < 2 ^ 48
  level_fits : -2 ^ 31 ≤ zbLevel ∧ zbLevel < 2 ^ 31
  blkid_lt : zbBlkid < 2 ^ 64
  deriving DecidableEq

/-! ## Numbers -/

/-- The digits of `%llx`. -/
def hexChar (digit : ℕ) : Char :=
  if digit < 10 then Char.ofNat ('0'.toNat + digit) else Char.ofNat ('a'.toNat + digit - 10)

/-- `%llx`. -/
def hex (val : ℕ) : List Char :=
  if val < 16 then [hexChar val] else hex (val / 16) ++ [hexChar (val % 16)]

/-- The digit of a character, in `strtonum`. -/
def digit (c : Char) : Option ℕ :=
  if '0' ≤ c ∧ c ≤ '9' then some (c.toNat - '0'.toNat)
  else if 'a' ≤ c ∧ c ≤ 'f' then some (10 + c.toNat - 'a'.toNat)
  else none

/-- The loop of `strtonum`. The result is the number and where the string goes on. -/
def strtonumFrom (val : ℕ) : List Char → ℕ × List Char
  | [] => (val, [])
  | c :: str =>
    match digit c with
    | none => (val, c :: str)
    | some d => strtonumFrom ((val * 16 + d) % 2 ^ 64) str

def strtonum (str : List Char) : ℕ × List Char := strtonumFrom 0 str

theorem digit_hexChar (small : d < 16) : digit (hexChar d) = some d := by
  interval_cases d <;> rfl

/-- `strtonum` over digits. -/
theorem strtonumFrom_append (allDigits : ∀ c ∈ digits, (digit c).isSome) (val) :
    strtonumFrom val (digits ++ rest) = strtonumFrom (strtonumFrom val digits).1 rest := by
  induction digits generalizing val with
  | nil => rfl
  | cons c digits ih =>
    rw [forall_mem_cons] at allDigits
    obtain ⟨d, isDigit⟩ := Option.isSome_iff_exists.mp allDigits.1
    simp only [cons_append, strtonumFrom, isDigit]
    exact ih allDigits.2 _

theorem hex_digits (val) : ∀ c ∈ hex val, (digit c).isSome := by
  induction val using Nat.strong_induction_on with
  | _ val ih =>
    rw [hex]
    split
    · rename_i small
      simp [digit_hexChar small]
    · rename_i large
      intro c member
      rcases mem_append.mp member with higher | lowest
      · exact ih (val / 16) (by omega) c higher
      · rw [mem_singleton.mp lowest, digit_hexChar (by omega)]
        rfl

theorem strtonumFrom_hex (fits : val < 2 ^ 64) : strtonumFrom 0 (hex val) = (val, []) := by
  induction val using Nat.strong_induction_on with
  | _ val ih =>
    rw [hex]
    split
    · rename_i small
      simp [strtonumFrom, digit_hexChar small]
      omega
    · rename_i large
      rw [strtonumFrom_append (hex_digits _), ih (val / 16) (by omega) (by omega)]
      simp only [strtonumFrom, digit_hexChar (show val % 16 < 16 by omega), Prod.mk.injEq, and_true]
      omega

/-- A number that was written reads back, and the string goes on behind it. -/
theorem strtonum_hex {val} (fits : val < 2 ^ 64) {rest : List Char} (stops : ∀ c ∈ rest.head?, digit c = none) :
    strtonum (hex val ++ rest) = (val, rest) := by
  rw [strtonum, strtonumFrom_append (hex_digits val), strtonumFrom_hex fits]
  cases rest with
  | nil => rfl
  | cons c rest => simp [strtonumFrom, stops c rfl]

/-- A number of at most `digits` digits. -/
theorem length_hex_le (positive : 0 < digits) (fits : val < 16 ^ digits) : (hex val).length ≤ digits := by
  induction digits generalizing val with
  | zero => omega
  | succ digits ih =>
    rw [hex]
    split
    · simp
    · rename_i large
      have more : 0 < digits := by
        by_contra none
        obtain rfl : digits = 0 := by omega
        omega
      have := @ih (val / 16) more (Nat.div_lt_of_lt_mul (by rw [pow_succ] at fits; omega))
      simp
      omega

/-! ## Bookmarks -/

/-- The size of the buffer that `sync_error_list` has for a name. -/
def nameBufLen : ℕ := 64

/-- `bookmark_to_name`, with the truncation of `snprintf`. -/
def bookmarkToName (zb : Zbookmark) (len : ℕ) : List Char :=
  (hex zb.zbObjset ++ ':' :: (hex zb.zbObject ++ ':' :: (hex (zb.zbLevel % 2 ^ 64).toNat ++
    ':' :: hex zb.zbBlkid))).take (len - 1)

/-- What `name_to_bookmark` stores: `zb_objset`, `zb_object`, `zb_level`, `zb_blkid`. -/
def nameToBookmark (buf : List Char) : ℕ × ℕ × ℤ × ℕ :=
  let (objset, buf) := strtonum buf
  let (object, buf) := strtonum (buf.drop 1)
  let (level, buf) := strtonum (buf.drop 1)
  let (blkid, _) := strtonum (buf.drop 1)
  (objset, object, Int.bmod level (2 ^ 32), blkid)

def Zbookmark.fields (zb : Zbookmark) : ℕ × ℕ × ℤ × ℕ := (zb.zbObjset, zb.zbObject, zb.zbLevel, zb.zbBlkid)

theorem bookmarkToName_eq (zb) :
    bookmarkToName zb nameBufLen = hex zb.zbObjset ++ ':' :: (hex zb.zbObject ++
      ':' :: (hex (zb.zbLevel % 2 ^ 64).toNat ++ ':' :: hex zb.zbBlkid)) := by
  refine take_of_length_le ?_
  have objset : (hex zb.zbObjset).length ≤ 12 := length_hex_le (by omega) (by simpa using zb.objset_lt)
  have object : (hex zb.zbObject).length ≤ 12 := length_hex_le (by omega) (by simpa using zb.object_lt)
  have level : (hex (zb.zbLevel % 2 ^ 64).toNat).length ≤ 16 := length_hex_le (by omega) (by omega)
  have blkid : (hex zb.zbBlkid).length ≤ 16 := length_hex_le (by omega) (by simpa using zb.blkid_lt)
  simp only [nameBufLen, length_append, length_cons]
  omega

theorem nameToBookmark_bookmarkToName (zb) :
    nameToBookmark (bookmarkToName zb nameBufLen) = zb.fields := by
  have colon : ∀ rest : List Char, ∀ c ∈ (':' :: rest).head?, digit c = none := by
    rintro rest c ⟨⟩
    rfl
  have objset := zb.objset_lt
  have object := zb.object_lt
  have level := zb.level_fits
  have blkid := @strtonum_hex zb.zbBlkid zb.blkid_lt [] (by simp)
  rw [append_nil] at blkid
  rw [bookmarkToName_eq]
  simp only [nameToBookmark, strtonum_hex (show zb.zbObjset < 2 ^ 64 by omega) (colon _),
    strtonum_hex (show zb.zbObject < 2 ^ 64 by omega) (colon _),
    strtonum_hex (show (zb.zbLevel % 2 ^ 64).toNat < 2 ^ 64 by omega) (colon _), drop_one, tail_cons, blkid,
    Zbookmark.fields, Prod.mk.injEq, true_and, and_true]
  norm_num [Int.bmod_def]
  omega

end MacZfs.Errlog
