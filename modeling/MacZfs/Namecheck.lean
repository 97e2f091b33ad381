import Mathlib

/-!
# Names of datasets

`dataset_namecheck` scans a name with two pointers, one at the start of a component and one at its end. What
lies before the string or behind its terminator cannot be read.
-/

namespace MacZfs.Namecheck

open List Language

open scoped Computability

/-- `valid_char` -/
def validChar (c : UInt8) : Bool :=
  ('a'.toUInt8 ≤ c && c ≤ 'z'.toUInt8) || ('A'.toUInt8 ≤ c && c ≤ 'Z'.toUInt8) ||
    ('0'.toUInt8 ≤ c && c ≤ '9'.toUInt8) || c == '-'.toUInt8 || c == '_'.toUInt8 || c == '.'.toUInt8 || c == ':'.toUInt8

abbrev slash : UInt8 := '/'.toUInt8

abbrev atSign : UInt8 := '@'.toUInt8

/-- `namecheck_err_t`, with the character that is stored in `what`. -/
inductive NamecheckErr where
  | leadingSlash
  | emptyComponent
  | trailingSlash
  | invalchar (what : UInt8)
  | multipleAt
  | toolong
  deriving DecidableEq

/-- `MAXNAMELEN` -/
def maxnamelen : ℕ := 256

/-- A pointer into a string: the characters before it, the nearest first, and those from it on, up to the terminator. -/
structure Ptr where
  before : List UInt8
  rest : List UInt8

/-- The loop that looks for the end of a component. -/
def findEnd (before : List UInt8) : List UInt8 → Option Ptr
  | [] => none
  | c :: rest => if c ≠ slash ∧ c ≠ atSign ∧ c ≠ 0 then findEnd (c :: before) rest else some ⟨before, c :: rest⟩

/-- The loop that validates the characters of a component, with the first that is not valid. -/
def validate (stop : List UInt8) : List UInt8 → Option (Option UInt8)
  | [] => none
  | c :: rest =>
    if (c :: rest).length = stop.length then some none
    else if validChar c then validate stop rest else some (some c)

/-- `*end == '\0' && end[-1] == '/'` -/
def trailingSlash (c : UInt8) (stop : Ptr) : Option Bool :=
  if c = 0 then stop.before.head?.map (· == slash) else some false

/-- What follows when a component is valid: the answer, or where the next one starts. -/
def afterComponent (c : UInt8) (stop : Ptr) (foundSnapshot : Bool) : Except NamecheckErr (Option (Ptr × Bool)) :=
  if c = 0 then .ok none
  else if c = atSign ∧ foundSnapshot then .error .multipleAt
  else
    let foundSnapshot := foundSnapshot || c = atSign
    if c = slash ∧ foundSnapshot then .error .trailingSlash
    else .ok (some (⟨c :: stop.before, stop.rest.tail⟩, foundSnapshot))

/-- One turn of the outer loop. -/
def component (loc : Ptr) (foundSnapshot : Bool) : Option (Except NamecheckErr (Option (Ptr × Bool))) := do
  let stop ← findEnd loc.before loc.rest
  let c ← stop.rest.head?
  let trailing ← trailingSlash c stop
  if trailing then return .error .trailingSlash
  else if loc.rest.length = stop.rest.length then
    return .error (if c = atSign ∧ foundSnapshot then .multipleAt else .emptyComponent)
  else
    let invalid ← validate stop.rest loc.rest
    return match invalid with
      | some what => .error (.invalchar what)
      | none => afterComponent c stop foundSnapshot

def scan : (fuel : ℕ) → Ptr → (foundSnapshot : Bool) → Option (Except NamecheckErr Unit)
  | 0, _, _ => none
  | fuel + 1, loc, foundSnapshot => do
      match ← component loc foundSnapshot with
      | .error e => return .error e
      | .ok none => return .ok ()
      | .ok (some (loc, foundSnapshot)) => scan fuel loc foundSnapshot

/-- `dataset_namecheck` of a string without its terminator. `none` is a read outside of it. -/
def datasetNamecheck (path : List UInt8) : Option (Except NamecheckErr Unit) :=
  if path.length ≥ maxnamelen then some (.error .toolong)
  else if path.headD 0 = slash then some (.error .leadingSlash)
  else if path.headD 0 = 0 then some (.error .emptyComponent)
  else scan (path.length + 1) ⟨[], path ++ [0]⟩ false

/-! ## The grammar -/

/-- A component. -/
def comp : Language UInt8 := {w | w ≠ [] ∧ ∀ c ∈ w, validChar c}

/-- What may follow the first component. -/
def more : Language UInt8 := ({[slash]} * comp)∗ * (1 + {[atSign]} * comp)

/-- `comp(/comp)*(@comp)?` -/
def name : Language UInt8 := comp * more

theorem more_eq : more = 1 + {[atSign]} * comp + {[slash]} * (comp * more) := by
  conv_lhs => rw [more, ← one_add_self_mul_kstar_eq_kstar, add_mul, one_mul, mul_assoc, mul_assoc]
  rfl

variable {w : List UInt8}

theorem cons_mem_mul : x :: w ∈ ({[y]} * l : Language UInt8) ↔ x = y ∧ w ∈ l := by
  constructor
  · rintro ⟨_, rfl, b, inside, same⟩
    cases same
    exact ⟨rfl, inside⟩
  · rintro ⟨rfl, inside⟩
    exact ⟨[x], rfl, w, inside, rfl⟩

theorem mem_more : w ∈ more ↔ w = [] ∨ (∃ s, w = atSign :: s ∧ s ∈ comp) ∨ ∃ s, w = slash :: s ∧ s ∈ name := by
  rw [more_eq, mem_add, mem_add, or_assoc]
  cases w with
  | nil => simp
  | cons x w => simp [cons_mem_mul, name]

/-- The characters that a component ends at, and the end of the string. -/
def inside (c : UInt8) : Bool := c ≠ slash ∧ c ≠ atSign ∧ c ≠ 0

theorem inside_of_valid (valid : validChar c) : inside c := by
  by_contra outside
  simp only [inside, ne_eq, decide_eq_true_eq, not_and_or, not_not] at outside
  rcases outside with rfl | rfl | rfl <;> exact absurd valid (by decide)

/-- A name splits where the scanner does. -/
theorem mem_name : w ∈ name ↔ w.takeWhile inside ∈ comp ∧ w.dropWhile inside ∈ more := by
  constructor
  · rintro ⟨a, component, b, rest, rfl⟩
    have within : ∀ c ∈ a, inside c := fun c member => inside_of_valid (component.2 c member)
    have stops : b.takeWhile inside = [] ∧ b.dropWhile inside = b := by
      rcases mem_more.mp rest with rfl | ⟨s, rfl, -⟩ | ⟨s, rfl, -⟩ <;> exact ⟨rfl, rfl⟩
    rw [takeWhile_append_of_pos within, dropWhile_append_of_pos within, stops.1, stops.2, append_nil]
    exact ⟨component, rest⟩
  · rintro ⟨component, rest⟩
    exact ⟨_, component, _, rest, takeWhile_append_dropWhile⟩

/-! ## The scanner -/

theorem mem_comp {w} : w ∈ comp ↔ w.takeWhile inside ∈ comp ∧ w.dropWhile inside = [] := by
  constructor
  · intro member
    have within : ∀ c ∈ w, inside c := fun c isIn => inside_of_valid (member.2 c isIn)
    rw [takeWhile_eq_self_iff.mpr within, dropWhile_eq_nil_iff.mpr within]
    exact ⟨member, rfl⟩
  · rintro ⟨member, none⟩
    rwa [← @takeWhile_append_dropWhile _ inside w, none, append_nil]

theorem mem_comp_iff {w} (given : w ≠ []) : w ∈ comp ↔ (w.find? fun c => !validChar c) = none := by
  rw [find?_eq_none]
  constructor
  · intro member c inside
    simp [member.2 c inside]
  · intro all
    exact ⟨given, fun c inside => by simpa using all c inside⟩

theorem findEnd_eq (before w : List UInt8) : findEnd before (w ++ [0]) =
    some ⟨(w.takeWhile inside).reverse ++ before, w.dropWhile inside ++ [0]⟩ := by
  induction w generalizing before with
  | nil => rfl
  | cons c w ih =>
    rw [cons_append, findEnd, takeWhile_cons, dropWhile_cons]
    by_cases within : inside c
    · rw [if_pos (by simpa [inside] using within), if_pos within, if_pos within, ih, reverse_cons,
        append_assoc, singleton_append]
    · rw [if_neg (by simpa [inside] using within), if_neg within, if_neg within]
      rfl

theorem validate_eq (run rest : List UInt8) : validate (rest ++ [0]) (run ++ (rest ++ [0])) =
    some (run.find? fun c => !validChar c) := by
  induction run with
  | nil => cases rest <;> simp [validate]
  | cons c run ih =>
    rw [cons_append, validate, if_neg (by simp; omega), ih, find?_cons]
    cases validChar c <;> rfl

section Component

variable {before w run rest : List UInt8} (isRun : w.takeWhile inside = run) (isRest : w.dropWhile inside = rest)
  (terminated : 0 ∉ w) (given : w ≠ [] ∨ before ≠ [])

include isRun isRest terminated given

theorem trailing_eq : ∃ trailing, trailingSlash ((rest ++ [0]).headD 0) ⟨run.reverse ++ before, rest ++ [0]⟩ =
    some trailing ∧ (run ≠ [] → trailing = false) := by
  have whole : w = run ++ rest := by rw [← isRun, ← isRest, takeWhile_append_dropWhile]
  rw [trailingSlash]
  cases rest with
  | cons c rest =>
    rw [if_neg fun zero => terminated (by simp [whole, show c = 0 from zero])]
    exact ⟨false, rfl, fun _ => rfl⟩
  | nil =>
    rcases eq_nil_or_concat run with rfl | ⟨init, last, rfl⟩
    · obtain ⟨c, before, rfl⟩ := exists_cons_of_ne_nil (given.resolve_left (by simp [whole]))
      exact ⟨_, rfl, fun some => absurd rfl some⟩
    · have member : last ∈ w.takeWhile inside := by simp [isRun]
      have isInside := mem_takeWhile_imp member
      simp only [inside, ne_eq, decide_eq_true_eq] at isInside
      simp [isInside.1]

theorem component_empty (none : run = []) (found : Bool) : ∃ e, component ⟨before, w ++ [0]⟩ found = some (.error e) := by
  obtain ⟨trailing, looked, -⟩ := trailing_eq isRun isRest terminated given
  have whole : w = run ++ rest := by rw [← isRun, ← isRest, takeWhile_append_dropWhile]
  have head : (rest ++ [0]).head? = some ((rest ++ [0]).headD 0) := by cases rest <;> rfl
  simp only [component, findEnd_eq, isRun, isRest, head, looked, Option.bind_eq_bind, Option.bind_some]
  split
  · exact ⟨_, rfl⟩
  · rw [if_pos (by simp [whole, none])]
    exact ⟨_, rfl⟩

theorem component_some (some : run ≠ []) (found : Bool) : component ⟨before, w ++ [0]⟩ found =
    .some (match run.find? fun c => !validChar c with
      | .some what => .error (.invalchar what)
      | none => afterComponent ((rest ++ [0]).headD 0) ⟨run.reverse ++ before, rest ++ [0]⟩ found) := by
  obtain ⟨trailing, looked, isFalse⟩ := trailing_eq isRun isRest terminated given
  have whole : w = run ++ rest := by rw [← isRun, ← isRest, takeWhile_append_dropWhile]
  have head : (rest ++ [0]).head? = .some ((rest ++ [0]).headD 0) := by cases rest <;> rfl
  simp only [component, findEnd_eq, isRun, isRest, head, looked, Option.bind_eq_bind, Option.bind_some]
  rw [isFalse some, if_neg Bool.false_ne_true, if_neg (by simp [whole, some]), whole, append_assoc, validate_eq]
  rfl

end Component

/-- The scan from a component on. -/
theorem scan_eq {fuel before w} (terminated : 0 ∉ w) (given : w ≠ [] ∨ before ≠ []) (enough : w.length < fuel)
    (found : Bool) : ∃ result, scan fuel ⟨before, w ++ [0]⟩ found = some result ∧
      (result = .ok () ↔ if found then w ∈ comp else w ∈ name) := by
  induction fuel generalizing before w found with
  | zero => cases enough
  | succ fuel ih =>
    generalize isRun : w.takeWhile inside = run, isRest : w.dropWhile inside = rest
    have whole : w = run ++ rest := by rw [← isRun, ← isRest, takeWhile_append_dropWhile]
    rw [scan, mem_comp, mem_name, isRun, isRest]
    by_cases none : run = []
    · obtain ⟨e, failed⟩ := component_empty isRun isRest terminated given none found
      rw [failed]
      refine ⟨_, rfl, iff_of_false (by simp) ?_⟩
      split <;> exact fun member => member.1.1 none
    · rw [component_some isRun isRest terminated given none, mem_comp_iff none]
      cases invalid : run.find? fun c => !validChar c with
      | some what => exact ⟨_, rfl, by simp⟩
      | none =>
        cases rest with
        | nil => exact ⟨_, rfl, by simp [mem_more]⟩
        | cons x s =>
          have separator : x = slash ∨ x = atSign := by
            have outside := @head_dropWhile_not _ inside w (by simp [isRest])
            simp only [isRest, head_cons, inside, ne_eq, decide_eq_false_iff_not, not_and_or, not_not] at outside
            exact outside.imp_right fun h => h.resolve_right fun zero => terminated (by simp [whole, zero])
          cases found with
          | true =>
            refine ⟨.error (if x = atSign then .multipleAt else .trailingSlash), ?_, by simp⟩
            rcases separator with rfl | rfl <;> rfl
          | false =>
            have shorter : s.length < fuel := by
              rw [whole, length_append, length_cons] at enough
              omega
            obtain ⟨result, scanned, isOk⟩ := @ih (x :: (run.reverse ++ before)) s
              (fun zero => terminated (by simp [whole, zero])) (.inr (by simp)) shorter (x = atSign)
            refine ⟨result, ?_, ?_⟩
            · rw [← scanned]
              rcases separator with rfl | rfl <;> rfl
            · rw [isOk, mem_more]
              have apart : slash ≠ atSign := by decide
              rcases separator with rfl | rfl <;> simp [apart, apart.symm]

/-- The check accepts exactly the names of the grammar that are not too long, and reads nothing but the string and its
    terminator. -/
theorem dataset_namecheck_iff {path : List UInt8} (terminated : 0 ∉ path) :
    ∃ result, datasetNamecheck path = some result ∧ (result = .ok () ↔
      path.length < maxnamelen ∧ path ∈ comp * ({[slash]} * comp)∗ * (1 + {[atSign]} * comp)) := by
  rw [mul_assoc]
  rw [datasetNamecheck]
  by_cases long : path.length ≥ maxnamelen
  · exact ⟨_, if_pos long, iff_of_false (by simp) fun short => absurd short.1 (not_lt.mpr long)⟩
  · rw [if_neg long]
    cases path with
    | nil => exact ⟨_, rfl, iff_of_false (by simp) fun member => (mem_name.mp member.2).1.1 rfl⟩
    | cons c rest =>
      rw [headD_cons]
      split
      · rename_i isSlash
        refine ⟨_, rfl, iff_of_false (by simp) fun member => (mem_name.mp member.2).1.1 ?_⟩
        simp [isSlash, inside]
      · rw [if_neg fun zero => terminated (by simp [zero])]
        obtain ⟨result, scanned, isOk⟩ := @scan_eq _ [] _ terminated (.inl (by simp)) (Nat.lt_succ_self _) false
        exact ⟨result, scanned, isOk.trans (and_iff_right (not_le.mp long)).symm⟩

/-- The name `a/b@c`. -/
theorem dataset_namecheck_snapshot : [97, 47, 98, 64, 99] ∈ comp * ({[slash]} * comp)∗ * (1 + {[atSign]} * comp) := by
  obtain ⟨result, checked, isOk⟩ := @dataset_namecheck_iff [97, 47, 98, 64, 99] (by decide)
  cases checked.symm.trans (by decide : datasetNamecheck [97, 47, 98, 64, 99] = some (.ok ()))
  exact (isOk.mp rfl).2

end MacZfs.Namecheck
