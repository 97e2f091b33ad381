import Mathlib

/-!
# Disks with write caches

A program writes to locations and flushes devices. A write that no flush of its device has followed
may be on the disk after a crash or not. So for each location there is a list of values that may
survive, the newest first; a write adds to it and a flush cuts it down to the newest.

A crash in the middle of a list of events is a crash after a prefix of it. Writes that are issued
together may reach the disk in any order: each of them may survive or not on its own. A flush that
has not completed only leaves more values possible.
-/

namespace WriteCache

open List Function

inductive Event (κ δ ν : Type) where
  | write (loc : κ) (val : ν)
  | flush (dev : δ)
  deriving DecidableEq

variable {κ δ ν : Type} [DecidableEq κ] [DecidableEq δ] (device : κ → δ)

def survive (cache : κ → List ν) : Event κ δ ν → κ → List ν
  | .write loc val => Function.update cache loc (val :: cache loc)
  | .flush dev => fun loc => if device loc = dev then (cache loc).take 1 else cache loc

def survivors (disk : κ → ν) (events : List (Event κ δ ν)) : κ → List ν :=
  events.foldl (survive device) fun loc => [disk loc]

def Crash (disk : κ → ν) (events : List (Event κ δ ν)) (disk' : κ → ν) : Prop :=
  ∃ done, done <+: events ∧ ∀ loc, disk' loc ∈ survivors device disk done loc

variable {device} {cache : κ → List ν} {disk : κ → ν} {events before flushes after : List (Event κ δ ν)}
  {loc : κ} {val x : ν}

theorem survive_flush : survive device cache (.flush (device loc)) loc = (cache loc).take 1 :=
  if_pos rfl

theorem mem_foldl_survive (member : x ∈ events.foldl (survive device) cache loc) :
    x ∈ cache loc ∨ .write loc x ∈ events := by
  induction events generalizing cache with
  | nil => exact .inl member
  | cons event rest ih =>
    rcases ih member with old | written
    · cases event with
      | write loc' val =>
        by_cases same : loc = loc'
        · subst same
          rw [survive, update_self, mem_cons] at old
          rcases old with rfl | old
          · exact .inr (mem_cons_self)
          · exact .inl old
        · rw [survive, update_of_ne same] at old
          exact .inl old
      | flush dev =>
        simp only [survive] at old
        split at old
        · exact .inl (mem_of_mem_take old)
        · exact .inl old
    · exact .inr (mem_cons_of_mem _ written)

theorem mem_survivors (member : x ∈ survivors device disk events loc) : x = disk loc ∨ .write loc x ∈ events :=
  (mem_foldl_survive member).imp_left List.mem_singleton.mp

theorem survivors_ne_nil (device : κ → δ) (disk : κ → ν) (events : List (Event κ δ ν)) (loc : κ) :
    survivors device disk events loc ≠ [] := by
  suffices ∀ cache : κ → List ν, (∀ loc, cache loc ≠ []) →
      ∀ loc, events.foldl (survive device) cache loc ≠ [] from this _ (by simp) loc
  induction events with
  | nil => exact fun cache nonempty => nonempty
  | cons event rest ih =>
    refine fun cache nonempty => ih _ fun loc => ?_
    cases event with
    | write loc' val =>
      by_cases same : loc = loc'
      · subst same
        simp [survive]
      · simp [survive, same, nonempty loc]
    | flush dev =>
      simp only [survive]
      split
      · simp [nonempty loc]
      · exact nonempty loc

def latest (device : κ → δ) (disk : κ → ν) (events : List (Event κ δ ν)) (loc : κ) : ν :=
  (survivors device disk events loc).headD (disk loc)

theorem crash_latest (disk : κ → ν) (events : List (Event κ δ ν)) :
    Crash device disk events (latest device disk events) := by
  refine ⟨events, prefix_rfl, fun loc => ?_⟩
  obtain ⟨head, tail, same⟩ := exists_cons_of_ne_nil (survivors_ne_nil device disk events loc)
  simp [latest, same]

theorem head_survive (newest : (cache loc).head? = some val) {event}
    (only : ∀ x, event = .write loc x → x = val) : (survive device cache event loc).head? = some val := by
  cases event with
  | write loc' val' =>
    by_cases same : loc = loc'
    · subst same
      rw [survive, update_self, List.head?_cons, only val' rfl]
    · rwa [survive, update_of_ne same]
  | flush dev =>
    simp only [survive]
    split
    · simpa [List.head?_take] using newest
    · exact newest

theorem head_foldl_survive (newest : (cache loc).head? = some val)
    (only : ∀ x, .write loc x ∈ events → x = val) : (events.foldl (survive device) cache loc).head? = some val := by
  induction events generalizing cache with
  | nil => exact newest
  | cons event rest ih =>
    refine ih (head_survive newest fun x same => only x ?_) fun x member => only x ?_
    · exact same ▸ mem_cons_self
    · exact mem_cons_of_mem _ member

/-- A value that was written last, and flushed, is the only one that can survive. -/
theorem eq_of_flushed (written : .write loc val ∈ before) (only : ∀ x, .write loc x ∈ before → x = val)
    (flushed : .flush (device loc) ∈ flushes) (kept : ∀ x, .write loc x ∉ flushes ++ after)
    (member : x ∈ survivors device disk (before ++ flushes ++ after) loc) : x = val := by
  obtain ⟨older, newer, rfl⟩ := append_of_mem written
  obtain ⟨first, last, rfl⟩ := append_of_mem flushed
  rw [survivors] at member
  simp only [foldl_append, foldl_cons] at member
  rw [← foldl_append, ← foldl_append] at member
  rcases mem_foldl_survive member with old | late
  · -- The flush left the newest value only, which is `val`.
    have newest : (foldl (survive device) (survive device
        (foldl (survive device) (fun loc => [disk loc]) older) (.write loc val))
        (newer ++ first) loc).head? = some val := by
      refine head_foldl_survive (by simp [survive]) fun x member => ?_
      rcases List.mem_append.mp member with member | member
      · exact only x (by simp [member])
      · exact absurd (by simp [member]) (kept x)
    rw [survive_flush] at old
    obtain ⟨rest, same⟩ := List.head?_eq_some_iff.mp newest
    simpa [same] using old
  · refine absurd ?_ (kept x)
    rcases List.mem_append.mp late with late | late <;> simp [late]

end WriteCache
