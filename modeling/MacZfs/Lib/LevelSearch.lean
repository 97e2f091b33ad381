import Mathlib

/-!
# Searching a tree of summaries

The regions of each level are all of one size and lie in the regions of the next level. A region of a higher level is
marked if one of those in it is. To find the first marked region at or after an offset, a search looks through the
block of regions around the offset, goes up as long as there is none, and then down again.
-/

namespace LevelSearch

open Nat

/-- The sizes of regions: `fan l` regions of level `l` make up one of the next. -/
structure Shape where
  size : ℕ → ℕ
  fan : ℕ → ℕ
  size_pos : ∀ l, 0 < size l
  size_succ : ∀ l, size (l + 1) = size l * fan l

/-! ## The two loops -/

/-- Upwards for at most so many levels, until a probe succeeds. `found` is what came of the last probe. -/
def climb (probe : ℕ → ℕ → Bool × ℕ) : ℕ → ℕ → ℕ → Bool → Bool × ℕ × ℕ
  | 0, level, offset, found => (found, offset, level)
  | n + 1, level, offset, _ =>
    match probe level offset with
    | (true, offset) => (true, offset, level)
    | (false, offset) => climb probe n (level + 1) offset false

def descend (probe : ℕ → ℕ → Bool × ℕ) : ℕ → ℕ → ℕ → Bool × ℕ
  | 0, _, offset => (true, offset)
  | n + 1, level, offset =>
    match probe (level - 1) offset with
    | (true, offset) => descend probe n (level - 1) offset
    | (false, offset) => (false, offset)

def search (probe : ℕ → ℕ → Bool × ℕ) (low top offset : ℕ) : Bool × ℕ :=
  match climb probe (top + 1 - low) low offset true with
  | (true, offset, level) => descend probe (level - low) level offset
  | (false, offset, _) => (false, offset)

/-! ## What holds of every search -/

section

variable {probe : ℕ → ℕ → Bool × ℕ} {low top : ℕ}

def Forward (bound o o' : ℕ) : Prop := o < bound → o ≤ o' ∧ o' < bound

theorem Forward.refl (bound o : ℕ) : Forward bound o o := fun inside => ⟨le_rfl, inside⟩

theorem Forward.trans {bound o o' o''} (first : Forward bound o o') (second : Forward bound o' o'') :
    Forward bound o o'' := fun inside =>
  ⟨(first inside).1.trans (second (first inside).2).1, (second (first inside).2).2⟩

section

variable {R : ℕ → ℕ → Prop} (refl : ∀ o, R o o) (trans : ∀ {o o' o''}, R o o' → R o' o'' → R o o'')
  (step : ∀ l o, low ≤ l → l ≤ top → R o (probe l o).2)

include refl trans step

theorem climb_keeps (n : ℕ) : ∀ (l o : ℕ) (found : Bool), low ≤ l → l + n ≤ top + 1 →
    R o (climb probe n l o found).2.1 ∧ l ≤ (climb probe n l o found).2.2 ∧ (climb probe n l o found).2.2 ≤ l + n := by
  induction n with
  | zero => exact fun l o found _ _ => ⟨refl o, le_rfl, le_rfl⟩
  | succ n ih =>
    intro l o found isLow levels
    have one := step l o isLow (by omega)
    rw [climb]
    split
    next o' hit =>
      rw [hit] at one
      exact ⟨one, le_rfl, le_add_right _ _⟩
    next o' miss =>
      rw [miss] at one
      obtain ⟨rest, more, less⟩ := ih (l + 1) o' false (by omega) (by omega)
      exact ⟨trans one rest, by omega, by omega⟩

theorem descend_keeps (n : ℕ) : ∀ (l o : ℕ), low + n ≤ l → l ≤ top + 1 → R o (descend probe n l o).2 := by
  induction n with
  | zero => exact fun l o _ _ => refl o
  | succ n ih =>
    intro l o isLow level
    have one := step (l - 1) o (by omega) (by omega)
    rw [descend]
    split
    next o' hit =>
      rw [hit] at one
      exact trans one (ih (l - 1) o' (by omega) (by omega))
    next o' miss =>
      rw [miss] at one
      exact one

theorem search_keeps (le : low ≤ top) (o : ℕ) : R o (search probe low top o).2 := by
  obtain ⟨up, level⟩ := climb_keeps refl trans step (top + 1 - low) low o true le_rfl (by omega)
  rw [search]
  split
  next o' l found =>
    rw [found] at up level
    dsimp only at level
    exact trans up (descend_keeps refl trans step (l - low) l o' (by omega) (by omega))
  next o' l lost =>
    rw [lost] at up
    exact up

end

end

/-! ## What a search finds

A search that starts inside a block that cannot be read keeps its distance from the start of that block. What it looks
for is found only if it is not nearer to the start of its own region.
-/

section

variable (shape : Shape) (low top reach : ℕ) (held marked : ℕ → ℕ → Prop)

structure Summary : Prop where
  above : ∀ l g, low ≤ l → l < top → marked l g → marked (l + 1) (g / shape.fan l)
  below : ∀ l g, low ≤ l → l < top → marked (l + 1) g → ∃ c, c / shape.fan l = g ∧ marked l c
  readable : ∀ l g, l < top → marked (l + 1) g → held l g
  path : ∀ l b, l + 1 < top → held l b → held (l + 1) (b / shape.fan (l + 1))

/-- What a probe of one level does: nothing if the block cannot be read, and otherwise it goes to the first marked region
    or to the end of the block, and as far into it. -/
structure Anywhere (probe : ℕ → ℕ → Bool × ℕ) : Prop where
  room : ∀ l g o, l ≤ top → g * shape.size l < reach → o < (g + 1) * shape.size l → o < reach
  skip : ∀ l o, l < top → ¬held l (o / shape.size (l + 1)) → probe l o = (false, o)
  hit : ∀ l o k, low ≤ l → l < top → held l (o / shape.size (l + 1)) → o / shape.size l % shape.fan l + k < shape.fan l →
    marked l (o / shape.size l + k) → (∀ j, j < k → ¬marked l (o / shape.size l + j)) →
    probe l o = (true, o + k * shape.size l)
  miss : ∀ l o, low ≤ l → l < top → held l (o / shape.size (l + 1)) →
    (∀ k, o / shape.size l % shape.fan l + k < shape.fan l → ¬marked l (o / shape.size l + k)) →
    probe l o = (false, o + (shape.fan l - o / shape.size l % shape.fan l) * shape.size l)
  topHit : ∀ o k, o < reach → marked top (o / shape.size top + k) →
    (∀ j, j < k → ¬marked top (o / shape.size top + j)) → probe top o = (true, o + k * shape.size top)
  topMiss : ∀ o, o < reach → (∀ k, ¬marked top (o / shape.size top + k)) → (probe top o).1 = false

def Clear (o o' : ℕ) : Prop := ∀ x, o ≤ x → x < o' → ¬marked low (x / shape.size low)

/-- A search that starts at `s` can read the blocks around it from level `e` on. -/
structure Unread (s e : ℕ) : Prop where
  isLow : low ≤ e
  inTree : e ≤ top
  below : ∀ l, low ≤ l → l < e → ¬held l (s / shape.size (l + 1))
  above : ∀ l, e ≤ l → l < top → held l (s / shape.size (l + 1))

/-- On its way to `y` it comes to level `l` with offset `x`. -/
structure Climbs (s e y l x : ℕ) : Prop where
  rest : x % shape.size l = s % shape.size e
  before : x / shape.size l ≤ y / shape.size l
  /-- Unless it has not moved, it is past its start and the block it has left can be read. -/
  left : l = e ∧ x = s ∨ s ≤ x / shape.size l * shape.size l ∧
    ∃ g, x / shape.size l = g + 1 ∧ (l < top → held l (g / shape.fan l))

variable {shape low top reach held marked} {probe : ℕ → ℕ → Bool × ℕ} {s y e l g : ℕ}
  (summary : Summary shape low top held marked)

theorem Shape.fan_pos (shape : Shape) (l : ℕ) : 0 < shape.fan l :=
  Nat.pos_of_mul_pos_left (shape.size_succ l ▸ shape.size_pos (l + 1))

theorem Shape.div_size (shape : Shape) (x l : ℕ) : x / shape.size l / shape.fan l = x / shape.size (l + 1) := by
  rw [Nat.div_div_eq_div_mul, shape.size_succ]

theorem Shape.size_le (shape : Shape) {l m} (le : l ≤ m) : shape.size l ∣ shape.size m := by
  induction m, le using le_induction with
  | base => exact dvd_rfl
  | succ m _ ih => exact ih.trans (shape.size_succ m ▸ dvd_mul_right _ _)

/-- The end of the block of regions around `x`, and as far on as `x` is from the start of its region. -/
theorem Shape.block_end (shape : Shape) (x l : ℕ) : x + (shape.fan l - x / shape.size l % shape.fan l) * shape.size l =
    (x / shape.size (l + 1) + 1) * shape.size (l + 1) + x % shape.size l := by
  have parts := div_add_mod' x (shape.size l)
  have index := div_add_mod' (x / shape.size l) (shape.fan l)
  have inside := mod_lt (x / shape.size l) (shape.fan_pos l)
  have total : (x / shape.size l / shape.fan l + 1) * shape.fan l =
      x / shape.size l + (shape.fan l - x / shape.size l % shape.fan l) := by
    rw [succ_mul]
    omega
  rw [← shape.div_size, shape.size_succ, Nat.mul_comm (shape.size l), ← Nat.mul_assoc, total, Nat.add_mul]
  omega

theorem exists_first (P : ℕ → Prop) (g : ℕ) :
    (∃ g', g ≤ g' ∧ P g' ∧ ∀ h, g ≤ h → h < g' → ¬P h) ∨ ∀ h, g ≤ h → ¬P h := by
  classical
  by_cases any : ∃ h, g ≤ h ∧ P h
  · refine .inl ⟨Nat.find any, (Nat.find_spec any).1, (Nat.find_spec any).2, fun h start before mark => ?_⟩
    exact Nat.find_min any before ⟨start, mark⟩
  · exact .inr fun h start mark => any ⟨h, start, mark⟩

theorem entry_add {fan g j} (positive : 0 < fan) (inside : g % fan + j < fan) :
    (g + j) / fan = g / fan ∧ (g + j) % fan = g % fan + j := by
  rw [Nat.div_mod_unique positive]
  have := mod_add_div g fan
  exact ⟨by omega, inside⟩

theorem index_add {fan g g' : ℕ} (same : g' / fan = g / fan) (more : g ≤ g') : g % fan + (g' - g) = g' % fan := by
  have first := mod_add_div g fan
  have second := mod_add_div g' fan
  rw [same] at second
  omega

include summary in
theorem Summary.marked_above (le : low ≤ l) (inTree : l ≤ top)
    (mark : marked low (x / shape.size low)) : marked l (x / shape.size l) := by
  induction l, le using le_induction with
  | base => exact mark
  | succ l le ih =>
    rw [← shape.div_size]
    exact summary.above l _ le inTree (ih (by omega))

include summary in
theorem Summary.marked_below {l g} (le : low ≤ l)
    (inTree : l ≤ top) (mark : marked l g) : ∃ c, c * shape.size low / shape.size l = g ∧ marked low c := by
  induction l, le using le_induction generalizing g with
  | base => exact ⟨g, Nat.mul_div_cancel _ (shape.size_pos low), mark⟩
  | succ l le ih =>
    obtain ⟨c, inside, child⟩ := summary.below l g le inTree mark
    obtain ⟨c', inside', lowest⟩ := ih (by omega) child
    refine ⟨c', ?_, lowest⟩
    rw [← shape.div_size, inside', inside]

include summary in
theorem Summary.exists_unread (le : low ≤ top) (s : ℕ) :
    ∃ e, Unread shape low top held s e := by
  rcases exists_first (fun l => l < top → held l (s / shape.size (l + 1))) low with ⟨e, isLow, read, first⟩ | none
  · have inTree : e ≤ top := by
      by_contra beyond
      exact first top le (by omega) fun less => absurd less (lt_irrefl _)
    refine ⟨e, isLow, inTree, fun l low less held => first l low less fun _ => held, fun l more => ?_⟩
    induction l, more using le_induction with
    | base => exact read
    | succ l more ih =>
      intro less
      rw [← shape.div_size]
      exact summary.path l _ less (ih (by omega))
  · exact absurd (fun less => absurd less (lt_irrefl _)) (none top le)

include summary in
theorem Summary.between (clear : Clear shape low marked s y) {l g}
    (le : low ≤ l) (inTree : l ≤ top) (after : s ≤ g * shape.size l) (before : g < y / shape.size l) : ¬marked l g := by
  intro marked'
  obtain ⟨c, inside, lowest⟩ := summary.marked_below le inTree marked'
  have size := shape.size_pos l
  have start : g * shape.size l ≤ c * shape.size low := by
    rw [← inside]
    exact div_mul_le_self _ _
  have stop : c * shape.size low < y := by
    refine lt_of_lt_of_le ?_ (div_mul_le_self y (shape.size l))
    refine lt_of_lt_of_le ?_ (mul_le_mul_right (shape.size l) before)
    rw [← inside, mul_comm _ (shape.size l)]
    exact lt_mul_div_succ _ size
  refine clear _ (after.trans start) stop ?_
  rwa [Nat.mul_div_cancel _ (shape.size_pos low)]

theorem Unread.climb_skip (unread : Unread shape low top held s e)
    (anywhere : Anywhere shape low top reach held marked probe) (m n : ℕ) : ∀ (l : ℕ) (found : Bool),
    low ≤ l → l + n = e → ∃ found', climb probe (m + n) l s found = climb probe m e s found' := by
  induction n with
  | zero =>
    intro l found _ isEnd
    obtain rfl : l = e := by omega
    exact ⟨found, rfl⟩
  | succ n ih =>
    intro l found more isEnd
    have skipped := anywhere.skip l s (by have := unread.inTree; omega) (unread.below l more (by omega))
    obtain ⟨found', rest⟩ := ih (l + 1) false (by omega) (by omega)
    refine ⟨found', ?_⟩
    rw [← add_assoc, climb, skipped]
    exact rest

section

variable (anywhere : Anywhere shape low top reach held marked probe)

include anywhere

theorem Anywhere.inReach (inTree : l ≤ top) (inReach : y < reach) (before : x / shape.size l ≤ y / shape.size l) :
    x < reach := by
  refine anywhere.room l (x / shape.size l) x inTree ?_ ?_
  · exact lt_of_le_of_lt (Nat.mul_le_mul_right _ before) (lt_of_le_of_lt (div_mul_le_self _ _) inReach)
  · rw [Nat.mul_comm]
    exact lt_mul_div_succ _ (shape.size_pos _)

/-- A probe that finds something has found a mark. -/
theorem Anywhere.mark {l o o'} (le : low ≤ l) (inTree : l ≤ top) (inReach : l = top → o < reach)
    (found : probe l o = (true, o')) : marked l (o' / shape.size l) := by
  have size := shape.size_pos l
  rcases Nat.lt_or_eq_of_le inTree with less | rfl
  · by_cases read : held l (o / shape.size (l + 1))
    · rcases exists_first (fun k => o / shape.size l % shape.fan l + k < shape.fan l ∧ marked l (o / shape.size l + k)) 0 with
        ⟨k, -, ⟨inside, mark⟩, first⟩ | nothing
      · rw [anywhere.hit l o k le less read inside mark fun j before mark' => first j (zero_le j) before ⟨by omega, mark'⟩]
          at found
        obtain rfl := congrArg Prod.snd found
        rwa [add_mul_div_right _ _ size]
      · rw [anywhere.miss l o le less read fun k inside mark => nothing k (zero_le k) ⟨inside, mark⟩] at found
        cases found
    · rw [anywhere.skip l o less read] at found
      cases found
  · rcases exists_first (fun k => marked l (o / shape.size l + k)) 0 with ⟨k, -, mark, first⟩ | nothing
    · rw [anywhere.topHit o k (inReach rfl) mark fun j before => first j (zero_le j) before] at found
      obtain rfl := congrArg Prod.snd found
      rwa [add_mul_div_right _ _ size]
    · have missed := anywhere.topMiss o (inReach rfl) fun k => nothing k (zero_le k)
      rw [found] at missed
      cases missed

theorem descend_mark (inTree : low < top) (n : ℕ) : ∀ l x, l = low + (n + 1) → descend probe (n + 1) l x = (true, y) →
    marked low (y / shape.size low) := by
  induction n with
  | zero =>
    intro l x isLow down
    rw [descend, show l - 1 = low by omega] at down
    split at down
    next o hit =>
      cases down
      exact anywhere.mark le_rfl (by omega) (by omega) hit
    next => cases down
  | succ n ih =>
    intro l x isLow down
    rw [descend] at down
    split at down
    next o hit => exact ih (l - 1) o (by omega) down
    next => cases down

/-- What a search finds is marked. -/
theorem search_mark (le : low ≤ top) (inReach : s < reach) (found : search probe low top s = (true, y)) :
    marked low (y / shape.size low) := by
  rw [search, show top + 1 - low = top - low + 1 by omega, climb] at found
  split at found
  next o l up =>
    split at up
    next o' hit =>
      cases up
      rw [Nat.sub_self, descend] at found
      cases found
      exact anywhere.mark le_rfl le (fun _ => inReach) hit
    next o' miss =>
      rcases Nat.eq_or_lt_of_le le with rfl | inTree
      · rw [Nat.sub_self, climb] at up
        cases up
      have level : low + 1 ≤ (climb probe (top - low) (low + 1) o' false).2.2 :=
        (climb_keeps (R := fun _ _ => True) (fun _ => trivial) (fun _ _ => trivial)
          (fun l _ (_ : low ≤ l) (_ : l ≤ top) => trivial) _ _ _ _ (by omega) (by omega)).2.1
      rw [up] at level
      obtain ⟨n, rfl⟩ := Nat.exists_eq_add_of_le level
      rw [show low + 1 + n - low = n + 1 by omega] at found
      exact descend_mark anywhere inTree n _ _ (by omega) found
  next => cases found

end

section

variable (anywhere : Anywhere shape low top reach held marked probe)

include summary anywhere

/-- A search that starts in a marked region stays where it is. -/
theorem search_here (le : low ≤ top) (inReach : s < reach) (mark : marked low (s / shape.size low)) :
    search probe low top s = (true, s) := by
  have here : probe low s = (true, s) := by
    rcases Nat.lt_or_eq_of_le le with less | rfl
    · have read := summary.readable low _ less (summary.above low _ le_rfl less mark)
      rw [shape.div_size] at read
      simpa using anywhere.hit low s 0 le_rfl less read (mod_lt _ (shape.fan_pos low)) mark (by simp)
    · simpa using anywhere.topHit s 0 inReach mark (by simp)
  rw [search, show top + 1 - low = top - low + 1 by omega, climb, here]
  dsimp only
  rw [Nat.sub_self, descend]

/-- A probe from before `y` in its block goes to the region of `y`. -/
theorem Anywhere.goes (isLow : low ≤ l) (inTree : l < top) (mark : marked low (y / shape.size low))
    (same : x / shape.size (l + 1) = y / shape.size (l + 1)) (before : x / shape.size l ≤ y / shape.size l)
    (none : ∀ g, x / shape.size l ≤ g → g < y / shape.size l → ¬marked l g) :
    probe l x = (true, x + (y / shape.size l - x / shape.size l) * shape.size l) := by
  have read := summary.readable l _ inTree (summary.marked_above (by omega) inTree mark)
  have block : y / shape.size l / shape.fan l = x / shape.size l / shape.fan l := by
    rw [shape.div_size, shape.div_size, same]
  have found := anywhere.hit l x (y / shape.size l - x / shape.size l) isLow inTree (same ▸ read)
  rw [index_add block before, Nat.add_sub_cancel' before] at found
  exact found (mod_lt _ (shape.fan_pos l)) (summary.marked_above isLow inTree.le mark) fun j less =>
    none _ (by omega) (by omega)

/-- On the way down, what is looked for is found unless it lies before the place that corresponds to the start. -/
theorem descend_drift (forward : ∀ l o, low ≤ l → l ≤ top → Forward bound o (probe l o).2)
    (within : reach ≤ bound) (inReach : y < reach) (mark : marked low (y / shape.size low))
    (clear : Clear shape low marked s y) (r n : ℕ) : ∀ (l x : ℕ), l = low + n → l ≤ top →
    s ≤ y / shape.size l * shape.size l → x / shape.size l = y / shape.size l → x % shape.size l = r % shape.size l →
    ((∀ j, low ≤ j → j < l → r % shape.size (j + 1) ≤ y % shape.size (j + 1)) →
        descend probe n l x = (true, y / shape.size low * shape.size low + r % shape.size low)) ∧
      ((∃ j, low ≤ j ∧ j < l ∧ y % shape.size (j + 1) < r % shape.size (j + 1)) → y < (descend probe n l x).2) := by
  induction n with
  | zero =>
    intro l x isLow _ _ region rest
    obtain rfl : l = low := by omega
    refine ⟨fun _ => ?_, by rintro ⟨j, more, less, _⟩; omega⟩
    rw [descend, ← region, ← rest, div_add_mod']
  | succ n ih =>
    intro l x isLow inTree start region rest
    obtain ⟨m, rfl⟩ : ∃ m, l = m + 1 := ⟨low + n, isLow⟩
    have size := shape.size_pos m
    have place : x = y / shape.size (m + 1) * shape.size (m + 1) + r % shape.size (m + 1) := by
      rw [← region, ← rest, div_add_mod']
    have place' : y = y / shape.size (m + 1) * shape.size (m + 1) + y % shape.size (m + 1) :=
      (div_add_mod' _ _).symm
    by_cases near : y % shape.size (m + 1) < r % shape.size (m + 1)
    · refine ⟨fun all => absurd (all m (by omega) (by omega)) (by omega), fun _ => ?_⟩
      have bounded := anywhere.inReach inTree inReach region.le
      have down := descend_keeps (Forward.refl bound) Forward.trans forward (n + 1) (m + 1) x (by omega) (by omega)
      exact lt_of_lt_of_le (by omega) (down (by omega)).1
    · have before : x / shape.size m ≤ y / shape.size m := Nat.div_le_div_right (by omega)
      have aligned : y / shape.size (m + 1) * shape.size (m + 1) ≤ x / shape.size m * shape.size m := by
        rw [← region, ← shape.div_size, shape.size_succ, Nat.mul_comm (shape.size m), ← Nat.mul_assoc]
        exact Nat.mul_le_mul_right _ (div_mul_le_self _ _)
      have hit := anywhere.goes summary (by omega) (by omega) mark region before fun g more =>
        summary.between clear (by omega) (by omega) (start.trans (aligned.trans (Nat.mul_le_mul_right _ more)))
      have next := ih m (x + (y / shape.size m - x / shape.size m) * shape.size m) (by omega) (by omega)
        (start.trans (aligned.trans (Nat.mul_le_mul_right _ before)))
        (by rw [add_mul_div_right _ _ size, Nat.add_sub_cancel' before])
        (by
          rw [add_mul_mod_self_right, ← mod_mod_of_dvd x (shape.size_le (le_succ m)), rest,
            mod_mod_of_dvd r (shape.size_le (le_succ m))])
      rw [descend, Nat.add_sub_cancel, hit]
      refine ⟨fun all => next.1 fun j more less => all j more (by omega), ?_⟩
      rintro ⟨j, more, less, nearer⟩
      refine next.2 ⟨j, more, ?_, nearer⟩
      rcases Nat.lt_or_eq_of_le (Nat.lt_succ_iff.mp less) with less | rfl
      · exact less
      · exact absurd nearer near

end

section

variable (unread : Unread shape low top held s e)

include summary unread

theorem Climbs.skip (climbs : Climbs shape top held s e y l x) (isLow : e ≤ l) (inTree : l < top)
    (unheld : ¬held l (x / shape.size (l + 1))) : Climbs shape top held s e y (l + 1) x := by
  obtain ⟨rest, before, left⟩ := climbs
  rcases left with ⟨rfl, rfl⟩ | ⟨past, g, same, held⟩
  · exact absurd (unread.above l le_rfl inTree) unheld
  have read := held inTree
  rw [← shape.div_size, same, Nat.succ_div] at unheld
  split_ifs at unheld with whole
  · have start : x / shape.size (l + 1) * shape.size (l + 1) = x / shape.size l * shape.size l := by
      rw [← shape.div_size, shape.size_succ, Nat.mul_comm (shape.size l), ← Nat.mul_assoc, same, Nat.div_mul_cancel whole]
    have parts := div_add_mod' x (shape.size l)
    have parts' := div_add_mod' x (shape.size (l + 1))
    refine ⟨by omega, ?_, .inr ⟨by rwa [start], g / shape.fan l, ?_, fun more => summary.path l _ more read⟩⟩
    · rw [← shape.div_size, ← shape.div_size]
      exact Nat.div_le_div_right before
    · rw [← shape.div_size, same, Nat.succ_div, if_pos whole]
  · exact absurd read unheld

variable (aligned : shape.size low ∣ s)

include aligned

/-- The region that the start lies in has nothing in it, unless it is one of the lowest level. -/
theorem Unread.start (more : s / shape.size e ≤ g) (mark : marked e g) : s ≤ g * shape.size e := by
  obtain ⟨isLow, inTree, below, -⟩ := unread
  rcases Nat.lt_or_eq_of_le isLow with less | rfl
  · obtain ⟨m, rfl⟩ : ∃ m, e = m + 1 := ⟨e - 1, by omega⟩
    have next : s / shape.size (m + 1) < g := by
      refine lt_of_le_of_ne more ?_
      rintro rfl
      exact below m (by omega) (by omega) (summary.readable m _ inTree mark)
    exact ((Nat.div_lt_iff_lt_mul (shape.size_pos _)).mp next).le
  · rw [← Nat.div_mul_cancel aligned]
    exact Nat.mul_le_mul_right _ more

theorem Climbs.start (climbs : Climbs shape top held s e y l x) (more : x / shape.size l ≤ g) (mark : marked l g) :
    s ≤ g * shape.size l := by
  rcases climbs.left with ⟨rfl, rfl⟩ | ⟨past, -⟩
  · exact unread.start summary aligned more mark
  · exact past.trans (Nat.mul_le_mul_right _ more)

variable (clear : Clear shape low marked s y)

include clear

theorem Climbs.none (climbs : Climbs shape top held s e y l x) (isLow : e ≤ l) (inTree : l ≤ top)
    (more : x / shape.size l ≤ g) (less : g < y / shape.size l) : ¬marked l g := fun mark =>
  summary.between clear (unread.isLow.trans isLow) inTree (climbs.start summary unread aligned more mark) less mark

variable (anywhere : Anywhere shape low top reach held marked probe)

include anywhere

theorem Climbs.miss (climbs : Climbs shape top held s e y l x) (isLow : e ≤ l) (inTree : l < top)
    (read : held l (x / shape.size (l + 1))) (other : x / shape.size (l + 1) ≠ y / shape.size (l + 1)) :
    ∃ x', probe l x = (false, x') ∧ Climbs shape top held s e y (l + 1) x' := by
  have size := shape.size_pos (l + 1)
  have before : x / shape.size (l + 1) < y / shape.size (l + 1) := by
    refine lt_of_le_of_ne ?_ other
    rw [← shape.div_size, ← shape.div_size]
    exact Nat.div_le_div_right climbs.before
  have short : x % shape.size l < shape.size (l + 1) :=
    lt_of_lt_of_le (mod_lt _ (shape.size_pos l)) (le_of_dvd size (shape.size_le (le_succ l)))
  have missed := anywhere.miss l x (unread.isLow.trans isLow) inTree read fun k inside =>
    climbs.none summary unread aligned clear isLow inTree.le (Nat.le_add_right _ _) (by
      refine Nat.lt_of_div_lt_div (c := shape.fan l) ?_
      rwa [(entry_add (shape.fan_pos l) inside).1, shape.div_size, shape.div_size])
  have region : ((x / shape.size (l + 1) + 1) * shape.size (l + 1) + x % shape.size l) / shape.size (l + 1) =
      x / shape.size (l + 1) + 1 := by
    rw [Nat.mul_comm, mul_add_div size, div_eq_of_lt short, Nat.add_zero]
  have past : s ≤ x := by
    rcases climbs.left with ⟨-, rfl⟩ | ⟨past, -⟩
    · exact le_rfl
    · exact past.trans (div_mul_le_self _ _)
  rw [shape.block_end] at missed
  refine ⟨_, missed, ?_, by rwa [region], .inr ⟨?_, _, region, fun more => summary.path l _ more read⟩⟩
  · rw [Nat.mul_comm, mul_add_mod, mod_eq_of_lt short, climbs.rest]
  · rw [region, Nat.mul_comm]
    exact past.trans (lt_mul_div_succ _ size).le

theorem climb_goes (inReach : y < reach) (mark : marked low (y / shape.size low)) (n : ℕ) : ∀ (l x : ℕ) (found : Bool),
    l + n = top → e ≤ l → Climbs shape top held s e y l x →
    ∃ l' x', climb probe (n + 1) l x found = (true, x', l') ∧ e ≤ l' ∧ l' ≤ top ∧ s ≤ y / shape.size l' * shape.size l' ∧
      x' / shape.size l' = y / shape.size l' ∧ x' % shape.size l' = s % shape.size e := by
  have lands (l x) (isLow : e ≤ l) (inTree : l ≤ top) (climbs : Climbs shape top held s e y l x) :
      s ≤ y / shape.size l * shape.size l ∧
        (x + (y / shape.size l - x / shape.size l) * shape.size l) / shape.size l = y / shape.size l ∧
        (x + (y / shape.size l - x / shape.size l) * shape.size l) % shape.size l = s % shape.size e := by
    refine ⟨climbs.start summary unread aligned climbs.before
      (summary.marked_above (unread.isLow.trans isLow) inTree mark), ?_, ?_⟩
    · rw [add_mul_div_right _ _ (shape.size_pos l), Nat.add_sub_cancel' climbs.before]
    · rw [add_mul_mod_self_right, climbs.rest]
  induction n with
  | zero =>
    intro l x found isTop isLow climbs
    obtain rfl : l = top := by omega
    have hit := anywhere.topHit x (y / shape.size l - x / shape.size l) (anywhere.inReach le_rfl inReach climbs.before)
    rw [Nat.add_sub_cancel' climbs.before] at hit
    refine ⟨l, _, ?_, isLow, le_rfl, lands l x isLow le_rfl climbs⟩
    rw [climb, hit (summary.marked_above (unread.isLow.trans isLow) le_rfl mark) fun j less =>
      climbs.none summary unread aligned clear isLow le_rfl (by omega) (by omega)]
  | succ n ih =>
    intro l x found isTop isLow climbs
    by_cases read : held l (x / shape.size (l + 1))
    · by_cases same : x / shape.size (l + 1) = y / shape.size (l + 1)
      · refine ⟨l, _, ?_, isLow, by omega, lands l x isLow (by omega) climbs⟩
        rw [climb, anywhere.goes summary (unread.isLow.trans isLow) (by omega) mark same climbs.before fun g =>
          climbs.none summary unread aligned clear isLow (by omega)]
      · obtain ⟨x', missed, next⟩ := climbs.miss summary unread aligned clear anywhere isLow (by omega) read same
        rw [climb, missed]
        exact ih (l + 1) x' false (by omega) (by omega) next
    · rw [climb, anywhere.skip l x (by omega) read]
      exact ih (l + 1) x false (by omega) (by omega) (climbs.skip summary unread isLow (by omega) read)

end

/-- A search from anywhere finds what is first, unless a block around its start cannot be read and what is first lies
    nearer to the start of such a region: then it goes past it. -/
theorem search_anywhere (summary : Summary shape low top held marked)
    (anywhere : Anywhere shape low top reach held marked probe)
    (forward : ∀ l o, low ≤ l → l ≤ top → Forward bound o (probe l o).2)
    (within : reach ≤ bound) (le : low ≤ top) (inReach : y < reach) (aligned : shape.size low ∣ s) (begin : s ≤ y)
    (mark : marked low (y / shape.size low)) (clear : Clear shape low marked s y) :
    ((∀ l, low ≤ l → l < top → ¬held l (s / shape.size (l + 1)) → s % shape.size (l + 1) ≤ y % shape.size (l + 1)) →
        search probe low top s = (true, y / shape.size low * shape.size low)) ∧
      ((∃ l, low ≤ l ∧ l < top ∧ ¬held l (s / shape.size (l + 1)) ∧ y % shape.size (l + 1) < s % shape.size (l + 1)) →
        y < (search probe low top s).2) := by
  obtain ⟨e, unread⟩ := summary.exists_unread le s
  obtain ⟨isLow, inTree, below, above⟩ := id unread
  obtain ⟨found, skipped⟩ := unread.climb_skip anywhere (top - e + 1) (e - low) low true le_rfl (by omega)
  obtain ⟨l, x, up, isBase, isTop, after, region, rest⟩ := climb_goes summary unread aligned clear anywhere inReach mark
    (top - e) e s found (by omega) le_rfl ⟨rfl, Nat.div_le_div_right begin, .inl ⟨rfl, rfl⟩⟩
  have short : s % shape.size e % shape.size l = s % shape.size e :=
    mod_eq_of_lt (lt_of_lt_of_le (mod_lt _ (shape.size_pos e)) (le_of_dvd (shape.size_pos l) (shape.size_le isBase)))
  have drift := descend_drift summary anywhere forward within inReach mark clear (s % shape.size e) (l - low) l x
    (by omega) isTop after region (by rw [rest, short])
  have whole : search probe low top s = descend probe (l - low) l x := by
    rw [search, show top + 1 - low = top - e + 1 + (e - low) by omega, skipped, up]
  have under (j : ℕ) (less : j < e) : s % shape.size e % shape.size (j + 1) = s % shape.size (j + 1) :=
    mod_mod_of_dvd s (shape.size_le less)
  rw [whole]
  refine ⟨fun all => ?_, ?_⟩
  · have near : s % shape.size e ≤ y % shape.size e := by
      rcases Nat.lt_or_eq_of_le isLow with less | rfl
      · obtain ⟨m, rfl⟩ : ∃ m, e = m + 1 := ⟨e - 1, by omega⟩
        exact all m (by omega) (by omega) (below m (by omega) (by omega))
      · rw [mod_eq_zero_of_dvd aligned]
        exact zero_le _
    rw [drift.1, mod_mod_of_dvd s (shape.size_le isLow), mod_eq_zero_of_dvd aligned, Nat.add_zero]
    intro j more less
    by_cases early : j < e
    · rw [under j early]
      exact all j more (by omega) (below j more early)
    · refine (mod_le _ _).trans (near.trans ?_)
      rw [← mod_mod_of_dvd y (shape.size_le (show e ≤ j + 1 by omega))]
      exact mod_le _ _
  · rintro ⟨j, more, less, unheld, near⟩
    have early : j < e := not_le.mp fun high => unheld (above j high less)
    refine drift.2 ⟨j, more, by omega, ?_⟩
    rwa [under j early]

end

end LevelSearch
