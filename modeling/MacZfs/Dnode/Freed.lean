import MacZfs.Dnode.Free

/-! # What is freed

Every step of `dnode_sync_free_range` frees some blocks: it records them, clears their pointers and takes their sizes
off the space the object uses. Steps are put together by appending what they free.
-/

namespace MacZfs.Dnode

open List DnodePhys Syncing

variable {dn dn₁ : Syncing} {new : List (ℕ × ℕ)} {l i j : ℕ}

def DnodePhys.clear (dnp : DnodePhys) (places : List (ℕ × ℕ)) : DnodePhys :=
  { dnp with blkptr := fun l i => if (l, i) ∈ places then .zero else dnp.blkptr l i }

theorem DnodePhys.clear_clear (dnp : DnodePhys) (places later : List (ℕ × ℕ)) :
    (dnp.clear places).clear later = dnp.clear (places ++ later) := by
  simp only [clear, mk.injEq, true_and]
  funext l i
  by_cases late : (l, i) ∈ later <;> simp [late]

namespace Syncing

def Hole (dn : Syncing) (x : ℕ × ℕ) : Prop := (dn.phys.blkptr x.1 x.2).IsHole

instance (dn : Syncing) (x : ℕ × ℕ) : Decidable (dn.Hole x) := inferInstanceAs (Decidable (Blkptr.IsHole _))

def bytes (dn : Syncing) (places : List (ℕ × ℕ)) : ℕ := (places.map fun x => (dn.phys.blkptr x.1 x.2).dasize).sum

def free (dn : Syncing) (places : List (ℕ × ℕ)) : Syncing :=
  { dn with
    phys := dn.phys.clear places
    killed := dn.killed ++ places.map fun x => ⟨x.1, x.2, dn.phys.blkptr x.1 x.2⟩ }

theorem free_free (dn : Syncing) (apart : ∀ x ∈ later, x ∉ places) :
    (dn.free places).free later = dn.free (places ++ later) := by
  have same : ∀ x ∈ later, (dn.phys.clear places).blkptr x.1 x.2 = dn.phys.blkptr x.1 x.2 := fun x member =>
    if_neg (apart x member)
  have log : (later.map fun x => (⟨x.1, x.2, (dn.phys.clear places).blkptr x.1 x.2⟩ : Kill)) =
      later.map fun x => ⟨x.1, x.2, dn.phys.blkptr x.1 x.2⟩ :=
    map_congr_left fun x member => by rw [same x member]
  simp [free, clear_clear, log]

theorem bytes_congr {dn₁ : Syncing}
    (same : ∀ x ∈ places, dn₁.phys.blkptr x.1 x.2 = dn.phys.blkptr x.1 x.2) : dn₁.bytes places = dn.bytes places := by
  rw [bytes, bytes, map_congr_left fun x member => by rw [same x member]]

/-- The space used is a number of bytes or, before `SPA_VERSION_DNODE_BYTES`, of sectors, and blocks are whole sectors
    then. -/
structure Counts (dn : Syncing) : Prop where
  small : dn.dnUsedBytes < 2 ^ 64
  sectors : dn.dnodeBytes = false → dn.usedBytes = false ∧ ∀ l i, 512 ∣ (dn.phys.blkptr l i).dasize

end Syncing

structure Frees (dn dn' : Syncing) (new : List (ℕ × ℕ)) : Prop where
  log : dn'.killed = dn.killed ++ new.map fun x => ⟨x.1, x.2, dn.phys.blkptr x.1 x.2⟩
  nodup : new.Nodup
  held : ∀ x ∈ new, ¬dn.Hole x
  phys : dn'.phys = dn.phys.clear new
  space : dn.Counts → dn.bytes new ≤ dn.dnUsedBytes →
    dn'.dnUsedBytes = dn.dnUsedBytes - dn.bytes new ∧ dn'.Counts

namespace Frees

theorem refl (dn : Syncing) : Frees dn dn [] where
  log := by simp
  nodup := nodup_nil
  held := forall_mem_nil _
  phys := by simp [clear]
  space counts _ := ⟨by simp [bytes], counts⟩

theorem blkptr (frees : Frees dn dn₁ new) (l i) :
    dn₁.phys.blkptr l i = if (l, i) ∈ new then .zero else dn.phys.blkptr l i := by
  rw [frees.phys]
  rfl

theorem hole_iff (frees : Frees dn dn₁ new) (x : ℕ × ℕ) : dn₁.Hole x ↔ x ∈ new ∨ dn.Hole x := by
  rw [Syncing.Hole, frees.blkptr]
  split_ifs with member
  · simp [member]
  · simp [member, Syncing.Hole]

theorem epbs (frees : Frees dn dn₁ new) : dn₁.phys.epbs = dn.phys.epbs := by
  rw [frees.phys]
  rfl

theorem trans (first : Frees dn dn₁ new₁) (second : Frees dn₁ dn₂ new₂) : Frees dn dn₂ (new₁ ++ new₂) := by
  -- a block that is freed later was not freed before
  have apart : ∀ x ∈ new₂, x ∉ new₁ := fun x late early =>
    second.held x late ((first.hole_iff x).mpr (.inl early))
  have same : ∀ x ∈ new₂, dn₁.phys.blkptr x.1 x.2 = dn.phys.blkptr x.1 x.2 := fun x late => by
    rw [first.blkptr, if_neg (apart x late)]
  have bytes := bytes_congr same
  have sum : dn.bytes (new₁ ++ new₂) = dn.bytes new₁ + dn.bytes new₂ := by simp [Syncing.bytes]
  refine ⟨?_, ?_, ?_, ?_, ?_⟩
  · rw [second.log, first.log, map_append, append_assoc]
    congr 2
    exact map_congr_left fun x late => by rw [same x late]
  · exact nodup_append'.mpr ⟨first.nodup, second.nodup, fun x early late => apart x late early⟩
  · intro x member
    rcases mem_append.mp member with early | late
    · exact first.held x early
    · exact fun hole => second.held x late ((first.hole_iff x).mpr (.inr hole))
  · rw [second.phys, first.phys, clear_clear]
  · intro counts enough
    obtain ⟨space₁, counts₁⟩ := first.space counts (by omega)
    obtain ⟨space₂, counts₂⟩ := second.space counts₁ (by omega)
    exact ⟨by omega, counts₂⟩

end Frees

/-! ## Pointers next to each other -/

theorem dnodeDiduseSpace_frees {bytes} (counts : dn.Counts) (enough : bytes ≤ dn.dnUsedBytes)
    (whole : dn.dnodeBytes = false → 512 ∣ bytes) :
    (dnodeDiduseSpace dn (-bytes)).dnUsedBytes = dn.dnUsedBytes - bytes ∧ (dnodeDiduseSpace dn (-bytes)).Counts := by
  have small := counts.small
  have space : ((dn.dnUsedBytes + (-bytes : ℤ)) % 2 ^ 64).toNat = dn.dnUsedBytes - bytes := by omega
  cases version : dn.dnodeBytes with
  | true =>
    have result : dnodeDiduseSpace dn (-bytes) = { dn with dnUsed := dn.dnUsedBytes - bytes, usedBytes := true } := by
      simp only [dnodeDiduseSpace, version, if_true, space]
    rw [result]
    refine ⟨rfl, ?_, fun old => ?_⟩
    · show dn.dnUsedBytes - bytes < 2 ^ 64
      omega
    · simp [version] at old
  | false =>
    obtain ⟨flag, sectors⟩ := counts.sectors version
    have result : dnodeDiduseSpace dn (-bytes) = { dn with dnUsed := (dn.dnUsedBytes - bytes) >>> 9 } := by
      simp only [dnodeDiduseSpace, version, space]
      rfl
    have used : dn.dnUsedBytes = u64 (dn.dnUsed <<< 9) := by simp [dnUsedBytes, flag]
    have multiple : 512 ∣ dn.dnUsedBytes - bytes := by
      refine Nat.dvd_sub ?_ (whole version)
      rw [used, u64, Nat.shiftLeft_eq]
      omega
    have bytesUsed : (dnodeDiduseSpace dn (-bytes)).dnUsedBytes = dn.dnUsedBytes - bytes := by
      rw [result, dnUsedBytes]
      simp only [flag, Nat.shiftLeft_eq, Nat.shiftRight_eq_div_pow, u64]
      simp only [Bool.false_eq_true, if_false]
      omega
    refine ⟨bytesUsed, ?_, fun _ => ?_⟩
    · rw [bytesUsed]
      omega
    · rw [result]
      exact ⟨flag, sectors⟩

/-- The places that `free_blocks` frees. -/
def heldAt (dn : Syncing) (level : ℕ) (places : List ℕ) : List (ℕ × ℕ) :=
  (places.map fun i => (level, i)).filter fun x => !decide (dn.Hole x)

theorem mem_heldAt {level places x} : x ∈ heldAt dn level places ↔ (x.1 = level ∧ x.2 ∈ places) ∧ ¬dn.Hole x := by
  rw [heldAt, mem_filter, mem_map]
  simp only [Bool.not_eq_true', decide_eq_false_iff_not, and_congr_left_iff]
  intro _
  constructor
  · rintro ⟨i, member, rfl⟩
    exact ⟨rfl, member⟩
  · rintro ⟨rfl, member⟩
    exact ⟨x.2, member, rfl⟩

theorem foldl_freeBlock (level) (places : List ℕ) : ∀ (dn : Syncing) (bytes : ℕ), places.Nodup → bytes < 2 ^ 64 →
    places.foldl (freeBlock level) (dn, bytes) =
      (dn.free (heldAt dn level places), u64 (bytes + dn.bytes (heldAt dn level places))) := by
  induction places with
  | nil =>
    intro dn bytes _ small
    simp [heldAt, Syncing.bytes, free, clear, u64_of_lt small]
  | cons i places ih =>
    intro dn bytes nodup small
    obtain ⟨outside, nodup⟩ := nodup_cons.mp nodup
    by_cases hole : dn.Hole (level, i)
    · have round : freeBlock level (dn, bytes) i = (dn, bytes) := if_pos hole
      have held : heldAt dn level (i :: places) = heldAt dn level places := by simp [heldAt, hole]
      rw [foldl_cons, round, ih dn bytes nodup small, held]
    · have round : freeBlock level (dn, bytes) i =
          (dn.free [(level, i)], u64 (bytes + (dn.phys.blkptr level i).dasize)) := by
        simp only [freeBlock, free, clear, mem_singleton, Prod.mk.injEq]
        exact if_neg hole
      have held : heldAt dn level (i :: places) = (level, i) :: heldAt dn level places := by simp [heldAt, hole]
      have others : ∀ j ∈ places, (dn.free [(level, i)]).phys.blkptr level j = dn.phys.blkptr level j := by
        intro j member
        refine if_neg ?_
        rintro same
        simp only [mem_singleton, Prod.mk.injEq, true_and] at same
        exact outside (same ▸ member)
      have heldSame : heldAt (dn.free [(level, i)]) level places = heldAt dn level places := by
        refine filter_congr fun x member => ?_
        obtain ⟨j, inside, rfl⟩ := mem_map.mp member
        have iff : (dn.free [(level, i)]).Hole (level, j) ↔ dn.Hole (level, j) := by
          rw [Syncing.Hole, Syncing.Hole, others j inside]
        simp only [iff]
      have later : ∀ x ∈ heldAt dn level places, x.1 = level ∧ x.2 ∈ places := by
        intro x member
        exact (mem_heldAt.mp member).1
      have bound : u64 (bytes + (dn.phys.blkptr level i).dasize) < 2 ^ 64 := Nat.mod_lt _ (by norm_num)
      rw [foldl_cons, round, ih _ _ nodup bound, heldSame, held, free_free]
      · have bytesSame : (dn.free [(level, i)]).bytes (heldAt dn level places) = dn.bytes (heldAt dn level places) :=
          bytes_congr fun x member => by
            obtain ⟨here, inside⟩ := later x member
            rw [here, others _ inside]
        rw [bytesSame]
        simp [Syncing.bytes, u64, add_assoc]
      · intro x member same
        obtain ⟨_, inside⟩ := later x member
        rw [List.mem_singleton.mp same] at inside
        exact outside inside

/-- `free_blocks` frees what is not a hole. -/
theorem freeBlocks_frees (dn : Syncing) (level first num : ℕ) :
    Frees dn (freeBlocks dn level first num) (heldAt dn level (List.range' first num)) := by
  have nodup : (range' first num).Nodup := nodup_range'
  generalize held : heldAt dn level (range' first num) = new
  have result : freeBlocks dn level first num = dnodeDiduseSpace (dn.free new) (-(u64 (dn.bytes new) : ℕ)) := by
    rw [freeBlocks, foldl_freeBlock level _ dn 0 nodup (by norm_num), held, zero_add]
  have diduse : ∀ (dn : Syncing) (delta : ℤ), (dnodeDiduseSpace dn delta).phys = dn.phys ∧
      (dnodeDiduseSpace dn delta).killed = dn.killed := by
    intro dn delta
    rw [dnodeDiduseSpace]
    split_ifs <;> exact ⟨rfl, rfl⟩
  rw [result]
  refine ⟨(diduse _ _).2, ?_, fun x member => ?_, (diduse _ _).1, fun counts enough => ?_⟩
  · rw [← held]
    exact (nodup.map fun i j same => (Prod.mk.inj same).2).filter _
  · exact (mem_heldAt.mp (held ▸ member)).2
  · have small := counts.small
    rw [u64_of_lt (by omega)]
    refine dnodeDiduseSpace_frees ⟨counts.small, fun old => ?_⟩ enough fun old => ?_
    · obtain ⟨flag, sectors⟩ := counts.sectors old
      refine ⟨flag, fun l i => ?_⟩
      show 512 ∣ (if (l, i) ∈ new then Blkptr.zero else dn.phys.blkptr l i).dasize
      split_ifs
      · exact dvd_zero 512
      · exact sectors l i
    · refine dvd_sum fun n member => ?_
      obtain ⟨x, _, rfl⟩ := mem_map.mp member
      exact (counts.sectors old).2 x.1 x.2

/-- Nothing is left at the places of `free_blocks`. -/
theorem freeBlocks_hole (dn : Syncing) (low : first ≤ i) (high : i < first + num) :
    (freeBlocks dn level first num).Hole (level, i) := by
  rw [(freeBlocks_frees dn level first num).hole_iff, mem_heldAt]
  by_cases hole : dn.Hole (level, i)
  · exact .inr hole
  · exact .inl ⟨⟨rfl, mem_range'_1.mpr ⟨low, high⟩⟩, hole⟩

end MacZfs.Dnode
