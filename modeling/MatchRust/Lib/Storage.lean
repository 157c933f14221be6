import Mathlib

/-!
# Bytes in memory and on a disk

Stored bytes are a function of their position.  A store has two such images.
Programs read and write the one in memory, and a crash leaves the other one.
Bytes move from memory to the disk in groups, at times the program does not
choose (`persist`), or because it waits for them (`sync`).

What the images have in common on a range (`Agree`) is kept when bytes move, and
when the program writes elsewhere.  So a program that waits for a range once, and
then leaves it alone, finds it on the disk after any crash.
-/

namespace Storage

/-- Bytes by position. -/
abbrev Image := Nat → UInt8

/-- The bytes in `n` positions from `start` on. -/
def read (f : Image) (start n : Nat) : List UInt8 := (List.range' start n).map f

/-- The image with other bytes from `start` on. -/
def put (f : Image) (start : Nat) (bytes : List UInt8) : Image := fun i =>
  if start ≤ i then bytes[i - start]?.getD (f i) else f i

/-- Bytes of the memory that reach the disk. -/
def persist (mem disk : Image) (group : Nat → Bool) : Image := fun i =>
  if group i then mem i else disk i

/-- The first `n` bytes of the memory reach the disk. -/
def sync (mem disk : Image) (n : Nat) : Image := persist mem disk fun i => i < n

/-- Two images have the same bytes from `lo` up to `hi`. -/
def Agree (f g : Image) (lo hi : Nat) : Prop := ∀ i, lo ≤ i → i < hi → f i = g i

variable {f g h : Image} {start lo hi n : Nat}

/-! ## Reading -/

@[simp] theorem length_read (f : Image) (start n : Nat) : (read f start n).length = n := by
  simp [read]

theorem read_add (f : Image) (start m n : Nat) :
    read f start (m + n) = read f start m ++ read f (start + m) n := by
  rw [read, read, read, ← List.map_append, List.range'_append_1]

theorem Agree.read_eq (h : Agree f g lo hi) (hlo : lo ≤ start) (hhi : start + n ≤ hi) :
    read f start n = read g start n := by
  refine List.map_congr_left fun i hi => ?_
  obtain ⟨hle, hlt⟩ := List.mem_range'_1.mp hi
  exact h i (by omega) (by omega)

/-- Bytes that are read one by one. -/
theorem read_eq_of_getElem {bytes : List UInt8}
    (h : ∀ i, ∀ b ∈ bytes[i]?, f (start + i) = b) : read f start bytes.length = bytes := by
  refine List.ext_getElem (by simp) fun i h₁ h₂ => ?_
  simpa [read] using h i bytes[i] (by simp [h₂])

/-! ## Writing -/

theorem put_of_lt {bytes : List UInt8} {i : Nat} (h : i < start) : put f start bytes i = f i :=
  if_neg (by omega)

theorem put_of_le {bytes : List UInt8} {i : Nat} (h : start + bytes.length ≤ i) :
    put f start bytes i = f i := by
  have hnone : bytes[i - start]? = none := List.getElem?_eq_none (by omega)
  rw [put, hnone]
  exact ite_self _

@[simp] theorem put_nil (f : Image) (start : Nat) : put f start [] = f := by
  funext i
  exact ite_self _

/-- Bytes are put one by one. -/
theorem put_cons (f : Image) (start : Nat) (b : UInt8) (bytes : List UInt8) :
    put f start (b :: bytes) = put (Function.update f start b) (start + 1) bytes := by
  funext i
  rcases Nat.lt_trichotomy i start with hlt | rfl | hgt
  · rw [put_of_lt hlt, put_of_lt (by omega), Function.update_of_ne hlt.ne]
  · rw [put_of_lt (Nat.lt_succ_self i), Function.update_self]
    simp [put]
  · obtain ⟨k, rfl⟩ : ∃ k, i = start + 1 + k := ⟨i - (start + 1), by omega⟩
    have hk : start + 1 + k - start = k + 1 := by omega
    rw [put, put, if_pos (by omega), if_pos (by omega), hk, Nat.add_sub_cancel_left,
      List.getElem?_cons_succ, Function.update_of_ne hgt.ne']

/-- What was put is read back. -/
theorem read_put (f : Image) (start : Nat) (bytes : List UInt8) :
    read (put f start bytes) start bytes.length = bytes := by
  refine read_eq_of_getElem fun i b hb => ?_
  rw [Option.mem_def] at hb
  simp [put, hb]

/-! ## Agreement -/

theorem Agree.refl (f : Image) (lo hi : Nat) : Agree f f lo hi := fun _ _ _ => rfl

theorem Agree.trans (h₁ : Agree f g lo hi) (h₂ : Agree g h lo hi) : Agree f h lo hi :=
  fun i hlo hhi => (h₁ i hlo hhi).trans (h₂ i hlo hhi)

theorem Agree.symm (h : Agree f g lo hi) : Agree g f lo hi := fun i hlo hhi => (h i hlo hhi).symm

/-- Images that agree on a range agree on any part of it. -/
theorem Agree.mono (h : Agree f g lo hi) {lo' hi' : Nat} (hlo : lo ≤ lo') (hhi : hi' ≤ hi) :
    Agree f g lo' hi' :=
  fun i hi₁ hi₂ => h i (by omega) (by omega)

/-- A write outside of a range leaves it alone. -/
theorem agree_update {i : Nat} (b : UInt8) (h : i < lo ∨ hi ≤ i) :
    Agree (Function.update f i b) f lo hi := by
  intro j hlo hhi
  have hne : j ≠ i := by omega
  exact Function.update_of_ne hne b f

/-- Moving bytes to the disk keeps what it has in common with the memory. -/
theorem Agree.persist (h : Agree g f lo hi) (group : Nat → Bool) :
    Agree (persist f g group) f lo hi := by
  intro i hlo hhi
  rw [Storage.persist]
  split
  · rfl
  · exact h i hlo hhi

/-- After a wait the disk has what the memory has. -/
theorem agree_sync (f g : Image) (n lo : Nat) : Agree (sync f g n) f lo n :=
  fun _ _ hi => if_pos (decide_eq_true hi)

end Storage
