import MatchRust.Hp.Types
import Std.Data.TreeMap.Lemmas

/-!
# Price levels and their indexes

A level holds the identifiers of the orders at one tick, oldest first, and the
sum of their open lots.  The sum is a 64-bit integer and wraps.

A side of the book finds its levels through an index, a trait in the source
with an ordered map as its default implementation and a radix tree behind a
feature.  `LevelIndex` has the functions of that trait.  A function that hands
out a mutable reference takes the change to be made through it instead.

`LawfulLevelIndex` says what the book relies on: the index is a finite map,
listed best tick first.  The ordered maps of both sides are lawful.
-/

namespace MatchCoreHp

/-! ## Levels -/

/-- The 64-bit integer a sum wraps to. -/
def wrapI64 (x : Int) : Int := Int.bmod x (2 ^ 64)

/-- The largest 64-bit integer. -/
def i64Max : Int := 2 ^ 63 - 1

theorem wrapI64_eq {x : Int} (h0 : 0 ≤ x) (h1 : x ≤ i64Max) : wrapI64 x = x := by
  have h : i64Max = 9223372036854775807 := by decide
  exact Int.bmod_eq_of_le (by simp; omega) (by simp; omega)

/-- Orders at one tick. -/
structure Level where
  /-- The sum of the open lots. -/
  totalLot : Int := 0
  /-- The identifiers, oldest first. -/
  ids : List Nat := []
deriving DecidableEq

namespace Level

/-- Add an order at the back. -/
def push (level : Level) (id : Nat) (lot : Int) : Level :=
  ⟨wrapI64 (level.totalLot + lot), level.ids ++ [id]⟩

/-- Empty a level. -/
def clear (_ : Level) : Level := {}

/-- Take lots off the total, down to zero. -/
def debit (level : Level) (lot : Int) : Level :=
  let total := wrapI64 (level.totalLot - lot)
  { level with totalLot := if total < 0 then 0 else total }

end Level

/-! ## Indexes -/

/-- Operations over an ordered map from ticks to levels. -/
class LevelIndex (ι : Type) where
  /-- The empty index. -/
  default : ι
  get : ι → Int → Option Level
  getMut : ι → Int → (Level → Level) → ι
  contains : ι → Int → Bool
  insert : ι → Int → Level → ι
  remove : ι → Int → Option Level × ι
  bestTick : ι → Option Int
  depth : ι → Nat → List (Int × Int)
  getOrInsertWith : ι → Int → Level → (Level → Level) → ι

/-- The index of a side is a finite map from ticks to levels. -/
class LawfulLevelIndex (side : Side) (ι : Type) [LevelIndex ι] where
  /-- The levels, best tick first. -/
  levels : ι → List (Int × Level)
  sorted : ∀ i, (levels i).Pairwise fun a b => side.better a.1 b.1
  mem_levels : ∀ i t l, (t, l) ∈ levels i ↔ LevelIndex.get i t = some l
  get_default : ∀ t, LevelIndex.get (LevelIndex.default : ι) t = none
  get_getMut : ∀ (i : ι) t f u,
    LevelIndex.get (LevelIndex.getMut i t f) u =
      if u = t then (LevelIndex.get i t).map f else LevelIndex.get i u
  contains_eq : ∀ (i : ι) t, LevelIndex.contains i t = (LevelIndex.get i t).isSome
  remove_fst : ∀ (i : ι) t, (LevelIndex.remove i t).1 = LevelIndex.get i t
  get_remove : ∀ (i : ι) t u,
    LevelIndex.get (LevelIndex.remove i t).2 u = if u = t then none else LevelIndex.get i u
  get_insert : ∀ (i : ι) t l u,
    LevelIndex.get (LevelIndex.insert i t l) u = if u = t then some l else LevelIndex.get i u
  /-- The book asks for this only where there is no level yet. -/
  get_getOrInsertWith : ∀ (i : ι) t l f u, LevelIndex.get i t = none →
    LevelIndex.get (LevelIndex.getOrInsertWith i t l f) u =
      if u = t then some (f l) else LevelIndex.get i u
  bestTick_eq : ∀ i, LevelIndex.bestTick i = (levels i).head?.map Prod.fst
  depth_eq : ∀ i n,
    LevelIndex.depth i n = ((levels i).take n).map fun p => (p.1, p.2.totalLot)

/-! ## Ordered maps -/

section BTree

variable {cmp : Int → Int → Ordering}

/-- The index an ordered map makes. -/
@[reducible] def btreeIndex (cmp : Int → Int → Ordering) :
    LevelIndex (Std.TreeMap Int Level cmp) where
  default := ∅
  get map tick := map[tick]?
  getMut map tick f := map.modify tick f
  contains map tick := map.contains tick
  insert map tick level := map.insert tick level
  remove map tick := (map[tick]?, map.erase tick)
  bestTick map := map.keys.head?
  depth map n := (map.toList.take n).map fun p => (p.1, p.2.totalLot)
  getOrInsertWith map tick level f := (map.insertIfNew tick level).modify tick f

variable [Std.TransCmp cmp] [Std.LawfulEqCmp cmp]

theorem getElem?_modify_eq (map : Std.TreeMap Int Level cmp) (t : Int) (f : Level → Level)
    (u : Int) : (map.modify t f)[u]? = if u = t then map[t]?.map f else map[u]? := by
  rw [Std.TreeMap.getElem?_modify]
  by_cases h : u = t
  · simp [h, Std.ReflCmp.compare_self]
  · have hne : cmp t u ≠ .eq := fun he => h (Std.LawfulEqCmp.eq_of_compare he).symm
    simp [h, hne]

/-- An ordered map whose order lists the best tick first is lawful. -/
@[reducible] def btreeLawful (side : Side) (hcmp : ∀ a b, cmp a b = .lt → side.better a b) :
    @LawfulLevelIndex side (Std.TreeMap Int Level cmp) (btreeIndex cmp) :=
  letI := btreeIndex cmp
  { levels := fun map => map.toList
    sorted := fun map => map.ordered_keys_toList.imp fun h => hcmp _ _ h
    mem_levels := fun map t l => Std.TreeMap.mem_toList_iff_getElem?_eq_some
    get_default := fun t => Std.TreeMap.getElem?_emptyc
    get_getMut := getElem?_modify_eq
    contains_eq := fun map t => Std.TreeMap.contains_eq_isSome_getElem?
    remove_fst := fun map t => rfl
    get_remove := fun map t u => by
      show (map.erase t)[u]? = if u = t then none else map[u]?
      rw [Std.TreeMap.getElem?_erase]
      exact if_congr (Std.LawfulEqCmp.compare_eq_iff_eq.trans eq_comm) rfl rfl
    get_insert := fun map t l u => by
      show (map.insert t l)[u]? = if u = t then some l else map[u]?
      rw [Std.TreeMap.getElem?_insert]
      exact if_congr (Std.LawfulEqCmp.compare_eq_iff_eq.trans eq_comm) rfl rfl
    get_getOrInsertWith := fun map t l f u (h : map[t]? = none) => by
      show ((map.insertIfNew t l).modify t f)[u]? = if u = t then some (f l) else map[u]?
      have hmem : t ∉ map := by rw [Std.TreeMap.mem_iff_isSome_getElem?, h]; simp
      rw [getElem?_modify_eq]
      by_cases hu : u = t
      · rw [if_pos hu, if_pos hu, Std.TreeMap.getElem?_insertIfNew,
          if_pos ⟨Std.ReflCmp.compare_self, hmem⟩, Option.map_some]
      · have hne : cmp t u ≠ .eq := fun he => hu (Std.LawfulEqCmp.eq_of_compare he).symm
        simp [hu, hne, Std.TreeMap.getElem?_insertIfNew]
    bestTick_eq := fun map => by
      show map.keys.head? = map.toList.head?.map Prod.fst
      rw [← Std.TreeMap.map_fst_toList_eq_keys, List.head?_map]
    depth_eq := fun map n => rfl }

end BTree

/-- The asks: lowest tick first. -/
abbrev BTreeAskIndex := Std.TreeMap Int Level fun a b => compare a b

/-- The bids: highest tick first. -/
abbrev BTreeBidIndex := Std.TreeMap Int Level fun a b => compare b a

instance : LevelIndex BTreeAskIndex := btreeIndex _

instance : LevelIndex BTreeBidIndex := btreeIndex _

instance : LawfulLevelIndex .sell BTreeAskIndex :=
  btreeLawful .sell fun _ _ h => compare_lt_iff_lt.mp h

instance : LawfulLevelIndex .buy BTreeBidIndex :=
  btreeLawful .buy fun _ _ h => compare_lt_iff_lt.mp h

end MatchCoreHp
