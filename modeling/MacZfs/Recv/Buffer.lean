import MacZfs.Recv.Basic
import MacZfs.Lib.Runs

/-! # The restore buffer

The bytes that are ready are always the next bytes of the stream, and a read gives them or fails.
-/

namespace MacZfs.Recv

structure Ready (stream : ℕ → UInt8) (ra : RestoreArg) : Prop where
  low : 0 ≤ ra.bufoff
  mid : ra.bufoff ≤ ra.buflen
  high : ra.buflen ≤ bufsize
  behind : ra.buflen - ra.bufoff ≤ ra.voff
  content : ∀ x, ra.bufoff ≤ x → x < ra.buflen → ra.buf x = stream (ra.voff - (ra.buflen - x).toNat)

def RestoreArg.position (ra : RestoreArg) : ℕ := ra.voff - (ra.buflen - ra.bufoff).toNat

def Access.Safe : Access → Prop
  | .buffer place len => 0 ≤ place ∧ 0 ≤ len ∧ place + len ≤ bufsize
  | .data place len got => 0 ≤ place ∧ len ≤ got ∧ place + got ≤ bufsize

variable {len : ℤ}

/-- What `restore_read` promises. -/
structure Reads (stream : ℕ → UInt8) (ra : RestoreArg) (len : ℤ) (read : ReadResult) : Prop where
  ready : Ready stream read.ra
  byteswap : read.ra.byteswap = ra.byteswap
  safe : ∀ access ∈ read.accesses, access.Safe
  got : ∀ rv, read.rv = some rv → 0 ≤ rv ∧ rv + len ≤ read.ra.buflen ∧
    read.ra.position = ra.position + len.toNat ∧
    ∀ j : ℕ, j < len → read.ra.buf (rv + j) = stream (ra.position + j)

theorem Ready.refill (ready : Ready stream ra) (answer : Rdwr) :
    Ready stream (refill stream answer ra) ∧ (Recv.refill stream answer ra).position = ra.position ∧
      ∀ access ∈ refillAccesses answer ra, access.Safe := by
  obtain ⟨low, mid, high, behind, content⟩ := ready
  have size : bufsize = 1048576 := rfl
  refine ⟨⟨le_rfl, ?_, ?_, ?_, fun x first last => ?_⟩, ?_, fun access one => ?_⟩
  · simp only [Recv.refill]
    omega
  · simp only [Recv.refill]
    omega
  · simp only [Recv.refill]
    omega
  · simp only [Recv.refill, fill, memmove] at first last ⊢
    split_ifs with new old
    · congr 1
      omega
    · rw [content _ (by omega) (by omega)]
      congr 1
      omega
    · omega
  · simp only [RestoreArg.position, Recv.refill]
    omega
  · simp only [refillAccesses, List.mem_cons, List.not_mem_nil, or_false] at one
    rcases one with rfl | rfl | rfl
    all_goals
      simp only [Access.Safe]
      omega

theorem Ready.give (ready : Ready stream ra) (positive : 0 ≤ len) (enough : len ≤ ra.buflen - ra.bufoff)
    (reads : List Rdwr) : Reads stream ra len (give len reads ra) := by
  obtain ⟨low, mid, high, behind, content⟩ := ready
  have size : bufsize = 1048576 := rfl
  refine ⟨⟨?_, ?_, high, ?_, fun x first last => ?_⟩, rfl, ?_, ?_⟩
  · simp only [Recv.give]
    omega
  · simp only [Recv.give]
    omega
  · simp only [Recv.give]
    omega
  · simp only [Recv.give] at first
    exact content x (by omega) last
  · intro access one
    rw [List.mem_singleton.mp one]
    refine ⟨low, ?_, ?_⟩
    all_goals omega
  · intro rv same
    obtain rfl := Option.some.inj same
    refine ⟨low, ?_, ?_, fun j less => ?_⟩
    · simp only [Recv.give]
      omega
    · simp only [RestoreArg.position, Recv.give]
      omega
    · simp only [Recv.give]
      rw [content _ (by omega) (by omega), RestoreArg.position]
      congr 1
      omega

/-- `restore_read` gives the next bytes of the stream or fails. -/
theorem restoreRead_reads (positive : 0 ≤ len) (reads : List Rdwr) (ready : Ready stream ra) :
    Reads stream ra len (restoreRead stream len reads ra) := by
  induction reads generalizing ra with
  | nil =>
    obtain ⟨ready', _, safe⟩ := ready.refill ⟨0, true⟩
    rw [restoreRead]
    split_ifs with short
    · exact ⟨ready', rfl, safe, fun rv none => by cases none⟩
    · exact ready.give positive (by omega) []
  | cons answer reads ih =>
    obtain ⟨ready', same, safe⟩ := ready.refill answer
    rw [restoreRead]
    split_ifs with short failed
    · exact ⟨ready', rfl, safe, fun rv none => by cases none⟩
    · obtain ⟨after, byteswap, later, got⟩ := ih ready'
      rw [same] at got
      refine ⟨after, byteswap, fun access one => ?_, got⟩
      rcases List.mem_append.mp one with early | late
      · exact safe access early
      · exact later access late
    · exact ready.give positive (by omega) _

end MacZfs.Recv
