import MatchRust.Hp.Journal

/-!
# Which bytes a recovery reads

A recovery opens the file, reads the committed cursor from its header and follows the
lengths of the records up to there.  It reads through raw pointers.  The cursor is a bound
for the scan, but it comes from the same file, and nothing compares it with the size of the
file.

So a recovery stays in the file as long as the cursor does.  With a cursor beyond the end it
depends on the records.  They are followed as far as they lie in the file (`Follows`).  The
scan must stop at the one after them, by a length that reaches beyond the cursor as well
(`recovery_in_bounds_iff`).
-/

namespace MatchCoreHp

open Storage

namespace MmapJournal

/-- The length that stands at a position. -/
def lenAt (f : Image) (off : Nat) : Nat := Bytes.leValue (read f off 4)

/-- The positions that `readRecords` reads. -/
def scanReads (f : Image) (stop : Nat) : Nat → Nat → List Nat
  | 0, _ => []
  | fuel + 1, off =>
      if stop < off + 4 then []
      else
        List.range' off 4 ++
          if stop < off + 4 + lenAt f off then []
          else
            List.range' (off + 4) (lenAt f off) ++ scanReads f stop fuel (off + 4 + lenAt f off)

/-- The positions that a recovery reads: the header, and then the records. -/
def recoveryReads (j : MmapJournal) : List Nat :=
  List.range' 0 headerLen ++ scanReads j.map j.committedCursor j.committedCursor headerLen

/-! ## Nothing else is read -/

variable {f g : Image} {stop cap : Nat}

theorem read_congr {start n : Nat} (h : ∀ i ∈ List.range' start n, f i = g i) :
    read f start n = read g start n := List.map_congr_left h

/-- The records depend on the bytes that are read, and on no others. -/
theorem readRecords_congr {fuel off : Nat} (h : ∀ i ∈ scanReads f stop fuel off, f i = g i) :
    readRecords f stop fuel off = readRecords g stop fuel off := by
  induction fuel generalizing off with
  | zero => rfl
  | succ fuel ih =>
      rw [scanReads] at h
      rw [readRecords, readRecords]
      split
      next => rfl
      next hroom =>
        rw [if_neg hroom] at h
        have hlen : Bytes.leValue (read g off 4) = lenAt f off := by
          rw [lenAt, read_congr fun i hi => h i (List.mem_append_left _ hi)]
        simp only [hlen, show Bytes.leValue (read f off 4) = lenAt f off from rfl]
        split
        next => rfl
        next hfits =>
          rw [if_neg hfits] at h
          rw [read_congr fun i hi => h i (List.mem_append_right _ (List.mem_append_left _ hi)),
            ih fun i hi => h i (List.mem_append_right _ (List.mem_append_right _ hi))]

/-- A recovery depends on the bytes that it reads, and on no others. -/
theorem recovery_congr {j j' : MmapJournal} (h : ∀ i ∈ j.recoveryReads, j.map i = j'.map i) :
    j.committedCursor = j'.committedCursor ∧
      j.iterRecords j.committedCursor = j'.iterRecords j'.committedCursor := by
  have hcursor : j.committedCursor = j'.committedCursor := by
    rw [committedCursor, committedCursor, read_congr fun i hi => h i (List.mem_append_left _ hi)]
  refine ⟨hcursor, ?_⟩
  rw [← hcursor]
  exact readRecords_congr fun i hi => h i (List.mem_append_right _ hi)

/-! ## Bounds -/

/-- The lengths lead from one position to another, over records that lie in the file. -/
inductive Follows (f : Image) (cap : Nat) : Nat → Nat → Prop where
  | refl (off : Nat) : Follows f cap off off
  | step {off o : Nat} : off + 4 + lenAt f off ≤ cap →
      Follows f cap (off + 4 + lenAt f off) o → Follows f cap off o

/-- The records from `off` on lie in the file up to one that does not, and a scan up to
`stop` does not take that one: it ends before its length, or its length is in the file and
reaches beyond `stop`. -/
def StopsInside (f : Image) (cap stop off : Nat) : Prop :=
  ∃ o, Follows f cap off o ∧ cap < o + 4 + lenAt f o ∧
    (stop < o + 4 ∨ o + 4 ≤ cap ∧ stop < o + 4 + lenAt f o)

/-- A scan reads in front of its end. -/
theorem lt_of_mem_scanReads {fuel off i : Nat} (h : i ∈ scanReads f stop fuel off) : i < stop := by
  induction fuel generalizing off with
  | zero => cases h
  | succ fuel ih =>
      rw [scanReads] at h
      split at h
      next => cases h
      next hroom =>
        rcases List.mem_append.mp h with hi | h
        · have := (List.mem_range'_1.mp hi).2
          omega
        split at h
        next => cases h
        next hfits =>
          rcases List.mem_append.mp h with hi | h
          · have := (List.mem_range'_1.mp hi).2
            omega
          · exact ih h

theorem range'_lt_iff {start n : Nat} (hsome : 0 < n ∨ start ≤ cap) :
    (∀ i ∈ List.range' start n, i < cap) ↔ start + n ≤ cap := by
  constructor
  · intro h
    rcases Nat.eq_zero_or_pos n with rfl | hn
    · omega
    have := h (start + n - 1) (List.mem_range'_1.mpr ⟨by omega, by omega⟩)
    omega
  · intro h i hi
    have := (List.mem_range'_1.mp hi).2
    omega

/-- What the scan of one more record needs. -/
theorem stopsInside_iff {off : Nat} (hroom : off + 4 ≤ stop) :
    StopsInside f cap stop off ↔
      (cap < off + 4 + lenAt f off ∧ off + 4 ≤ cap ∧ stop < off + 4 + lenAt f off) ∨
      (off + 4 + lenAt f off ≤ cap ∧ StopsInside f cap stop (off + 4 + lenAt f off)) := by
  constructor
  · rintro ⟨o, hfollows, hlast, hstop⟩
    cases hfollows with
    | refl =>
        rcases hstop with hstop | hstop
        · omega
        · exact Or.inl ⟨hlast, hstop⟩
    | step hin hrest => exact Or.inr ⟨hin, o, hrest, hlast, hstop⟩
  · rintro (⟨hlast, hstop⟩ | ⟨hin, o, hrest, hlast, hstop⟩)
    · exact ⟨off, .refl off, hlast, Or.inr hstop⟩
    · exact ⟨o, .step hin hrest, hlast, hstop⟩

/-- A scan up to a position beyond the file stays in the file exactly if it stops inside. -/
theorem scanReads_lt_iff (hbeyond : cap < stop) {fuel off : Nat} (hfuel : stop ≤ off + fuel) :
    (∀ i ∈ scanReads f stop fuel off, i < cap) ↔ StopsInside f cap stop off := by
  -- the scan ends where no length has room
  have hend : ∀ {off}, stop < off + 4 → StopsInside f cap stop off := fun h =>
    ⟨_, .refl _, by omega, Or.inl h⟩
  induction fuel generalizing off with
  | zero => exact iff_of_true (by simp [scanReads]) (hend (by omega))
  | succ fuel ih =>
      rw [scanReads]
      split
      next hshort => exact iff_of_true (by simp) (hend hshort)
      next hroom =>
        rw [List.forall_mem_append, range'_lt_iff (Or.inl (by decide)), stopsInside_iff (by omega)]
        split
        next hlong =>
          simp only [List.not_mem_nil, false_implies, implies_true, and_true]
          omega
        next hfits =>
          have hnext : (∀ i ∈ scanReads f stop fuel (off + 4 + lenAt f off), i < cap) ↔
              StopsInside f cap stop (off + 4 + lenAt f off) := ih (by omega)
          rw [List.forall_mem_append, hnext, or_iff_right fun h => hfits h.2.2]
          constructor
          · rintro ⟨hlen, hpayload, hrest⟩
            exact ⟨(range'_lt_iff (Or.inr hlen)).mp hpayload, hrest⟩
          · rintro ⟨hin, hrest⟩
            have hlen : off + 4 ≤ cap := by omega
            exact ⟨hlen, (range'_lt_iff (Or.inr hlen)).mpr hin, hrest⟩

end MmapJournal

/-- A recovery of a file reads nothing outside it exactly if the committed cursor is not beyond
the end, or the records stop the scan before it leaves the file. -/
theorem recovery_in_bounds_iff (file : Image) (capacity : Nat) (hcap : headerLen ≤ capacity) :
    (∀ i ∈ (MmapJournal.openExisting file capacity).recoveryReads, i < capacity) ↔
      (MmapJournal.openExisting file capacity).committedCursor ≤ capacity ∨
        MmapJournal.StopsInside file capacity
          (MmapJournal.openExisting file capacity).committedCursor headerLen := by
  generalize hstop : (MmapJournal.openExisting file capacity).committedCursor = stop
  rw [MmapJournal.recoveryReads, hstop, List.forall_mem_append,
    MmapJournal.range'_lt_iff (Or.inl (by decide)), Nat.zero_add, and_iff_right hcap]
  rcases Nat.lt_or_ge capacity stop with hbeyond | hinside
  · rw [or_iff_right (by omega)]
    exact MmapJournal.scanReads_lt_iff hbeyond (by omega)
  · refine iff_of_true (fun i hi => ?_) (Or.inl hinside)
    exact lt_of_lt_of_le (MmapJournal.lt_of_mem_scanReads hi) hinside

/-- The cursor is at the end of the file. -/
theorem recovery_in_bounds_sixteen :
    let j := MmapJournal.openExisting (fun i => if i = 0 then 16 else if i = 8 then 4 else 0) 16
    j.committedCursor = 16 ∧ ∀ i ∈ j.recoveryReads, i < 16 :=
  ⟨by decide, (recovery_in_bounds_iff _ 16 (by decide)).mpr (Or.inl (by decide))⟩

/-- The file has 16 bytes, and its cursor says 20.  There is one record.  The scan goes on
behind it, and reads a length at the position 16. -/
theorem recovery_leaves_file :
    16 ∈ (MmapJournal.openExisting (fun i => if i = 0 then 20 else if i = 8 then 4 else 0)
      16).recoveryReads := by
  decide

end MatchCoreHp
