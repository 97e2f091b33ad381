import MacZfs.Mirror.Basic

/-!
# Reads of a mirror

What the map of a read says at any time is fixed by the children that reads were issued to: these
hold how their read ended, the others were not looked at, were dead, or were put off because of
their DTL. Selection keeps that and finds a child as long as one is up and was not read.
-/

namespace MacZfs.Mirror

open List Function Option

variable {n : ℕ} {α : Type} {zio : Zio n α} {issued : List (Fin n)} {mm mm' : Fin n → MirrorChild}

theorem ChildRead.error_eq_none {read : ChildRead α} : read.error = none ↔ read = .good read.data := by
  cases read <;> simp [error, data]

/-! ## The map -/

inductive Unread (zio : Zio n α) (c : Fin n) : MirrorChild → Prop
  | fresh : Unread zio c ⟨none, false, false⟩
  | dead (down : zio.dead c = true) : Unread zio c ⟨some .enxio, true, true⟩
  | stale (up : zio.dead c = false) : Unread zio c ⟨some .estale, false, true⟩

structure MapOk (zio : Zio n α) (issued : List (Fin n)) (mm : Fin n → MirrorChild) : Prop where
  read : ∀ c ∈ issued, mm c = ⟨(zio.read c).error, true, false⟩
  unread : ∀ c, c ∉ issued → Unread zio c (mm c)

def Seen (mm : Fin n → MirrorChild) (c : Fin n) : Prop := (mm c).mcTried = true ∨ (mm c).mcSkipped = true

theorem mapAlloc_ok : MapOk zio [] (mapAlloc n) := ⟨by simp, fun _ _ => .fresh⟩

namespace MapOk

section

variable (ok : MapOk zio issued mm)

include ok

theorem fresh_of_not_seen (fresh : ¬Seen mm c) : c ∉ issued ∧ mm c = ⟨none, false, false⟩ := by
  have unread : c ∉ issued := by
    intro member
    exact fresh (.inl (by rw [ok.read c member]))
  refine ⟨unread, ?_⟩
  have status := ok.unread c unread
  revert fresh
  unfold Seen
  generalize mm c = child at status
  cases status <;> simp

theorem update (unread : c ∉ issued)
    (status : Unread zio c child) : MapOk zio issued (Function.update mm c child) := by
  constructor
  · intro c' member
    have ne : c' ≠ c := fun same => unread (same ▸ member)
    rw [update_of_ne ne]
    exact ok.read c' member
  · intro c' notRead
    by_cases same : c' = c
    · subst same
      rwa [update_self]
    · rw [update_of_ne same]
      exact ok.unread c' notRead

theorem complete (c) :
    MapOk zio (issued ++ [c]) (Function.update mm c ⟨(zio.read c).error, true, false⟩) := by
  constructor
  · intro c' member
    by_cases same : c' = c
    · subst same
      rw [update_self]
    · rw [update_of_ne same]
      exact ok.read c' (by simpa [same] using member)
  · intro c' notRead
    simp only [mem_append, mem_singleton, not_or] at notRead
    rw [update_of_ne notRead.2]
    exact ok.unread c' notRead.1

theorem goodCopies_eq_zero : goodCopies mm = 0 ↔ ∀ c ∈ issued, (zio.read c).error ≠ none := by
  simp only [goodCopies, countP_eq_zero, mem_finRange, true_implies, Bool.and_eq_true, isNone_iff_eq_none, not_and]
  constructor
  · intro none c member
    have := none c
    rw [ok.read c member] at this
    exact this rfl
  · intro bad c tried
    by_cases member : c ∈ issued
    · rw [ok.read c member]
      exact bad c member
    · have status := ok.unread c member
      revert tried
      generalize mm c = child at status
      cases status <;> simp

end

end MapOk

/-! ## Selection -/

theorem mem_passOrder (preferred c : Fin n) : c ∈ passOrder preferred := by
  have pos := preferred.pos
  refine mem_map.mpr ⟨(c + (n - preferred)) % n, mem_range.mpr (Nat.mod_lt _ pos), Fin.ext ?_⟩
  have enough : preferred + (c + (n - preferred)) = c.val + n := by omega
  rw [Fin.val_mk, Nat.add_mod_mod, enough, Nat.add_mod_right, Nat.mod_eq_of_lt c.isLt]

/-- What the first pass does: a child it finds is up and was not read; if it finds none, it has
    looked at all. -/
theorem selectPass_spec (ok : MapOk zio issued mm) (pass : selectPass zio order mm = (found, mm')) :
    MapOk zio issued mm' ∧ (∀ c, Seen mm c → Seen mm' c) ∧ (∀ c, found = some c → c ∉ issued ∧ zio.dead c = false) ∧
      (found = none → ∀ c ∈ order, Seen mm' c) := by
  induction order generalizing mm with
  | nil =>
    obtain ⟨rfl, rfl⟩ := pass
    simpa using ok
  | cons c rest ih =>
    rw [selectPass] at pass
    by_cases seen : Seen mm c
    · rw [if_pos (by simpa [Seen] using seen)] at pass
      obtain ⟨ok', keeps, up, all⟩ := ih ok pass
      refine ⟨ok', keeps, up, fun nothing c' member => ?_⟩
      rcases mem_cons.mp member with rfl | member
      · exact keeps _ seen
      · exact all nothing c' member
    · rw [if_neg (by simpa [Seen] using seen)] at pass
      obtain ⟨unread, fresh⟩ := ok.fresh_of_not_seen seen
      -- in the two branches that go on, the child gets a status and counts as seen
      have goOn : ∀ child : MirrorChild, Unread zio c child → (child.mcTried = true ∨ child.mcSkipped = true) →
          selectPass zio rest (update mm c child) = (found, mm') →
          MapOk zio issued mm' ∧ (∀ c, Seen mm c → Seen mm' c) ∧
            (∀ c, found = some c → c ∉ issued ∧ zio.dead c = false) ∧
            (found = none → ∀ c' ∈ c :: rest, Seen mm' c') := by
        intro child status nowSeen pass
        obtain ⟨ok', keeps, up, all⟩ := ih (ok.update unread status) pass
        have here : Seen mm' c := keeps c (by simpa [Seen] using nowSeen)
        refine ⟨ok', fun c' before => ?_, up, fun nothing c' member => ?_⟩
        · by_cases same : c' = c
          · exact same ▸ here
          · exact keeps c' (by simpa [Seen, same] using before)
        · rcases mem_cons.mp member with rfl | member
          · exact here
          · exact all nothing c' member
      cases down : zio.dead c with
      | true =>
        rw [if_pos down] at pass
        exact goOn _ (.dead down) (.inl rfl) pass
      | false =>
        rw [if_neg (by simp [down])] at pass
        split at pass
        · simp only [Prod.mk.injEq] at pass
          obtain ⟨rfl, rfl⟩ := pass
          refine ⟨ok, fun _ before => before, fun c' same => ?_, by simp⟩
          rw [Option.some.injEq] at same
          exact same ▸ ⟨unread, down⟩
        · rw [fresh] at pass
          exact goOn _ (.stale down) (.inr rfl) pass

/-- What `vdev_mirror_child_select` does: a child it finds is up and was not read; if it finds none,
    every child that is up was read, and no child is without a status. -/
theorem childSelect_spec (ok : MapOk zio issued mm) (select : childSelect zio mm = (found, mm')) :
    MapOk zio issued mm' ∧ (∀ c, found = some c → c ∉ issued ∧ zio.dead c = false) ∧
      (found = none → ∀ c, Seen mm' c ∧ (c ∈ issued ∨ zio.dead c = true)) := by
  unfold childSelect at select
  cases pass : selectPass zio (passOrder (mmPreferred zio)) mm with
  | mk first mm₁ =>
    obtain ⟨ok', -, up, all⟩ := selectPass_spec ok pass
    rw [pass] at select
    cases first with
    | some c =>
      obtain ⟨rfl, rfl⟩ := select
      exact ⟨ok', up, by simp⟩
    | none =>
      simp only [Prod.mk.injEq] at select
      obtain ⟨rfl, rfl⟩ := select
      have seen : ∀ c, Seen mm₁ c := fun c => all rfl c (mem_passOrder _ c)
      -- a child that was seen and is not tried was put off, and so is up
      have status : ∀ c, (mm₁ c).mcTried = false → c ∉ issued ∧ zio.dead c = false := by
        intro c untried
        have unread : c ∉ issued := by
          intro member
          rw [ok'.read c member] at untried
          exact absurd untried (by simp)
        refine ⟨unread, ?_⟩
        have status := ok'.unread c unread
        have seen := seen c
        unfold Seen at seen
        generalize mm₁ c = child at status untried seen
        cases status with
        | fresh => simp at seen
        | dead => simp at untried
        | stale up => exact up
      refine ⟨ok', fun c found => ?_, fun nothing c => ⟨seen c, ?_⟩⟩
      · have untried := find?_some found
        exact status c (by simpa using untried)
      · have tried := find?_eq_none.mp nothing c (mem_finRange c)
        by_cases member : c ∈ issued
        · exact .inl member
        · refine .inr ?_
          have status := ok'.unread c member
          generalize mm₁ c = child at status tried
          cases status with
          | fresh => simp at tried
          | dead down => exact down
          | stale => simp at tried

/-! ## Reading -/

/-- What holds between the calls: no child is read twice, a child that is dead is read only where
    all are, and if a read was good, the buffer has the data of a good one. -/
structure ReadOk (zio : Zio n α) (s : ReadState n α) : Prop where
  map : MapOk zio s.issued s.mm
  nodup : s.issued.Nodup
  up : ∀ c ∈ s.issued, readsAll zio = true ∨ zio.dead c = false
  data : ∀ c ∈ s.issued, (zio.read c).error = none → ∃ c' ∈ s.issued, zio.read c' = .good s.ioData
  started : s.issued = [] → ∀ c, (s.mm c).mcError.isSome

theorem isSome_of_seen (ok : MapOk zio [] mm) (seen : Seen mm c) : (mm c).mcError.isSome := by
  have status := ok.unread c not_mem_nil
  unfold Seen at seen
  generalize mm c = child at status seen
  cases status with
  | fresh => simp at seen
  | dead => rfl
  | stale => rfl

theorem childRead_ok {s} {c} (map : MapOk zio s.issued s.mm) (nodup : s.issued.Nodup)
    (up : ∀ c ∈ s.issued, readsAll zio = true ∨ zio.dead c = false) (fresh : c ∉ s.issued)
    (alive : zio.dead c = false) (bad : ∀ c ∈ s.issued, (zio.read c).error ≠ none) :
    ReadOk zio (childRead zio s c) where
  map := map.complete c
  nodup := by
    rw [childRead, nodup_append_comm]
    exact nodup_cons.mpr ⟨fresh, nodup⟩
  up := by
    intro c' member
    rcases mem_append.mp member with before | now
    · exact up c' before
    · rw [mem_singleton.mp now]
      exact .inr alive
  data := by
    intro c' member good
    rcases mem_append.mp member with before | now
    · exact absurd good (bad c' before)
    · rw [mem_singleton.mp now] at good
      exact ⟨c, by simp [childRead], ChildRead.error_eq_none.mp good⟩
  started := by simp [childRead]

theorem scrubDone_ok {order} {s} (all : readsAll zio = true)
    (map : MapOk zio s.issued s.mm) (nodup : (s.issued ++ order).Nodup)
    (data : ∀ c ∈ s.issued, (zio.read c).error = none → ∃ c' ∈ s.issued, zio.read c' = .good s.ioData)
    (some_ : s.issued ++ order ≠ []) :
    ReadOk zio (order.foldl (scrubDone zio) s) ∧ (order.foldl (scrubDone zio) s).issued = s.issued ++ order := by
  induction order generalizing s with
  | nil =>
    rw [append_nil] at nodup some_
    exact ⟨⟨map, nodup, fun _ _ => .inl all, data, fun empty => absurd empty some_⟩, by simp⟩
  | cons c rest ih =>
    have same : (scrubDone zio s c).issued ++ rest = s.issued ++ c :: rest := by simp [scrubDone]
    have step := @ih (scrubDone zio s c) (map.complete c) (same ▸ nodup) ?_ (same ▸ some_)
    · rwa [same] at step
    · intro c' member good
      cases here : (zio.read c).error with
      | none =>
        exact ⟨c, by simp [scrubDone], by simpa [scrubDone, here] using ChildRead.error_eq_none.mp here⟩
      | some error =>
        have before : c' ∈ s.issued := by
          rcases mem_append.mp member with before | now
          · exact before
          · rw [mem_singleton.mp now, here] at good
            exact absurd good (by simp)
        obtain ⟨c'', member', holds⟩ := data c' before good
        exact ⟨c'', by simp [scrubDone, member'], by simpa [scrubDone, here] using holds⟩

/-- After `vdev_mirror_io_start`. A read that goes to all children has been issued to all. -/
theorem ioStart_ok (zio : Zio n α) (completion : Completion n) (buffer : α) :
    ReadOk zio (ioStart zio completion buffer) ∧
      (readsAll zio = true → ∀ c, c ∈ (ioStart zio completion buffer).issued) := by
  unfold ioStart
  cases all : readsAll zio with
  | true =>
    have every : ∀ c, c ∈ completion.order := fun c => completion.perm.mem_iff.mpr (mem_finRange c)
    have nodup : completion.order.Nodup := completion.perm.nodup_iff.mpr (nodup_finRange n)
    obtain ⟨ok, issued⟩ := @scrubDone_ok _ _ zio completion.order ⟨mapAlloc n, buffer, []⟩ all mapAlloc_ok
      (by simpa using nodup) (by simp) (ne_nil_of_mem (every ⟨0, zio.children_pos⟩))
    exact ⟨ok, fun _ c => by simpa [issued] using every c⟩
  | false =>
    simp only [Bool.false_eq_true, if_false, false_implies, and_true]
    cases select : childSelect zio (mapAlloc n) with
    | mk found mm =>
      obtain ⟨map, up, seen⟩ := childSelect_spec mapAlloc_ok select
      cases found with
      | some c =>
        obtain ⟨fresh, alive⟩ := up c rfl
        exact @childRead_ok _ _ zio ⟨mm, buffer, []⟩ c map nodup_nil (by simp) fresh alive (by simp)
      | none =>
        exact ⟨map, nodup_nil, by simp, by simp, fun _ c => isSome_of_seen map (seen rfl c).1⟩

theorem lastError_ne_none (failed : (mm c).mcError.isSome) : lastError mm ≠ none := by
  have stays : ∀ (rest : List (Fin n)) (error : Option IoError), error ≠ none ∨ c ∈ rest →
      rest.foldl (fun error c =>
        if (mm c).mcError.isSome && !decide (error = some .eio) then (mm c).mcError else error) error ≠ none := by
    intro rest
    induction rest with
    | nil => simp
    | cons c' rest ih =>
      intro error there
      rw [foldl_cons]
      apply ih
      by_cases isError : error = none
      · rcases mem_cons.mp (there.resolve_left (by simp [isError])) with rfl | later
        · exact .inl (by simp [isError, isSome_iff_ne_none.mp failed])
        · exact .inr later
      · refine .inl ?_
        split
        · rename_i holds
          simp only [Bool.and_eq_true] at holds
          exact isSome_iff_ne_none.mp holds.1
        · exact isError
  exact stays _ none (.inr (mem_finRange c))

theorem lastError_of_bad (ok : ReadOk zio s)
    (bad : ∀ c ∈ s.issued, (zio.read c).error ≠ none) : lastError s.mm ≠ none := by
  cases issued : s.issued with
  | nil => exact lastError_ne_none (ok.started issued ⟨0, zio.children_pos⟩)
  | cons c rest =>
    have member : c ∈ s.issued := by simp [issued]
    refine lastError_ne_none (c := c) ?_
    rw [ok.map.read c member]
    exact isSome_iff_ne_none.mpr (bad c member)

structure ReadSpec (zio : Zio n α) (result : ReadResult n α) : Prop where
  nodup : result.issued.Nodup
  up : ∀ c ∈ result.issued, readsAll zio = true ∨ zio.dead c = false
  succeeds : result.ioError = none ↔
    ∃ c, (readsAll zio = true ∨ zio.dead c = false) ∧ (zio.read c).error = none
  data : result.ioError = none → ∃ c ∈ result.issued, zio.read c = .good result.ioData
  repairs : ∀ c ∈ result.repairs, result.ioError = none ∧
    ¬(c ∈ result.issued ∧ (zio.read c).error = none)

/-- The calls of `vdev_mirror_io_done` end, and the read is then as it should be. The rounds are
    enough because each takes a child that was not read. -/
theorem ioDone_spec (rounds : ℕ) (ok : ReadOk zio s)
    (all : readsAll zio = true → ∀ c, c ∈ s.issued) (enough : n < rounds + s.issued.length) :
    ∃ result, ioDone zio rounds s = some result ∧ ReadSpec zio result := by
  induction rounds generalizing s with
  | zero =>
    have : s.issued.length ≤ n := by simpa using ok.nodup.length_le_card
    omega
  | succ rounds ih =>
    rw [ioDone]
    split
    · rename_i noCopy
      have bad := ok.map.goodCopies_eq_zero.mp noCopy
      cases select : childSelect zio s.mm with
      | mk found mm =>
        obtain ⟨map, up, seen⟩ := childSelect_spec ok.map select
        cases found with
        | some c =>
          obtain ⟨fresh, alive⟩ := up c rfl
          have next := @childRead_ok _ _ zio { s with mm } c map ok.nodup ok.up fresh alive bad
          refine ih next (fun every c' => ?_) ?_
          · exact mem_append_left _ (all every c')
          · simp only [childRead, length_append, length_singleton]
            omega
        | none =>
          have error := lastError_of_bad ok bad
          refine ⟨_, rfl, ok.nodup, ok.up, ⟨fun isNone => absurd isNone error, ?_⟩,
            fun isNone => absurd isNone error, by simp⟩
          rintro ⟨c, readable, good⟩
          have read : c ∈ s.issued := by
            rcases readable with every | alive
            · exact all every c
            · exact (seen rfl c).2.resolve_right (by simp [alive])
          exact absurd good (bad c read)
    · rename_i copies
      have good : ∃ c ∈ s.issued, (zio.read c).error = none := by
        by_contra none
        exact copies (ok.map.goodCopies_eq_zero.mpr fun c member isNone => none ⟨c, member, isNone⟩)
      obtain ⟨c, member, isGood⟩ := good
      refine ⟨_, rfl, ok.nodup, ok.up, ⟨fun _ => ⟨c, ok.up c member, isGood⟩, fun _ => rfl⟩,
        fun _ => ok.data c member isGood, ?_⟩
      intro c' written
      refine ⟨rfl, fun ⟨read, returned⟩ => ?_⟩
      have target : c' ∈ repairTargets zio s.mm := by
        simp only [succeed] at written
        split at written
        · exact written
        · exact absurd written not_mem_nil
      simp [repairTargets, ok.map.read c' read, returned] at target

/-- A read of a mirror ends. It reads no child twice; it succeeds exactly if a child that it may
    read, one that is not dead or any in a scrubbing read that goes to all, has a good copy; it then
    returns a good copy, and it writes to no child that returned one. -/
theorem mirror_read (zio : Zio n α) (completion : Completion n) (buffer : α) :
    ∃ result, mirrorRead zio completion buffer = some result ∧ ReadSpec zio result := by
  obtain ⟨ok, all⟩ := ioStart_ok zio completion buffer
  exact ioDone_spec (n + 1) ok all (by omega)

/-- A scrubbing read goes to a dead child as well: here to a mirror of one, which is dead and still
    returns good data. -/
theorem mirror_read_dead :
    let zio : Zio 1 ℕ := ⟨.vdev false 0, fun _ => true, fun _ => false, fun _ => .good 7, true, false, true,
      Nat.one_pos⟩
    mirrorRead zio ⟨[0], .refl _⟩ 0 = some ⟨none, 7, [0], []⟩ ∧
      ¬∃ c, zio.dead c = false ∧ (zio.read c).error = none := by
  decide

end MacZfs.Mirror
