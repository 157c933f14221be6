import MatchRust.Hp.IndexSim

/-!
# The radix tree and the ordered map

A radix tree holds a finite map of ticks (`ArtMap.Holds`), and every operation does
to the map what its name says.  A lawful index is a finite map as well.  So the
radix trees and the ordered maps give the same results for every sequence of
operations, and the engines built on them show the same for every sequence of
commands (`art_parity`).

One operation differs in general.  `getOrInsertWith` of the tree inserts the level
also where there is one, and the ordered map keeps the old one.  The book calls it
for a missing tick only, and so do the sequences here.
-/

namespace MatchCoreHp

namespace ArtMap

/-! ## Maps -/

/-- The ticks and levels of a tree, lowest tick first. -/
def toList (map : ArtMap) : List (Int × Level) :=
  match map.root with
  | none => []
  | some root => root.toList

/-- A leaf at the root, or a tree of full depth. -/
def Wf (map : ArtMap) : Prop :=
  match map.root with
  | none => True
  | some (.leaf key _) => IsI64 key
  | some (.inner children) => Node.Wf 8 0 (.inner children)

/-- The tree holds the levels of a finite map. -/
structure Holds (map : ArtMap) (levels : Int → Option Level) : Prop where
  wf : map.Wf
  mem : ∀ t l, (t, l) ∈ map.toList ↔ levels t = some l

variable {map : ArtMap} {levels levels' : Int → Option Level} {t : Int} {l : Level}

theorem holds_empty (h : ∀ t, levels t = none) : ({} : ArtMap).Holds levels :=
  ⟨trivial, fun t l => by simp [toList, h t]⟩

theorem Wf.pairwise (h : map.Wf) : map.toList.Pairwise fun a b => a.1 < b.1 := by
  obtain ⟨root⟩ := map
  cases root with
  | none => exact List.Pairwise.nil
  | some root =>
      cases root with
      | leaf key value => exact List.pairwise_singleton ..
      | inner children => exact Node.Wf.pairwise h

theorem keyNat_div_eq_zero (ht : IsI64 t) : keyNat t / 256 ^ (7 + 1) = 0 :=
  Nat.div_eq_of_lt (keyNat_lt ht)

/-- A tick that is there is the only one of its kind. -/
theorem Holds.levels_eq_none (h : map.Holds levels) :
    levels t = none ↔ ∀ l, (t, l) ∉ map.toList := by
  rw [Option.eq_none_iff_forall_ne_some]
  exact forall_congr' fun l => not_congr (h.mem t l).symm

theorem Holds.get_eq (h : map.Holds levels) (t : Int) : map.get t = levels t := by
  refine Option.ext fun l => ?_
  rw [← h.mem t l]
  obtain ⟨root⟩ := map
  cases root with
  | none => simp [get, toList]
  | some root =>
      cases root with
      | inner children => exact Node.Wf.getLoop_eq h.wf le_rfl
      | leaf key value =>
          simp only [get, Option.bind_some, Node.getLoop, toList, Node.toList, List.mem_singleton,
            Prod.mk.injEq]
          split <;> simp_all [eq_comm]

theorem Holds.contains_eq (h : map.Holds levels) (t : Int) :
    map.contains t = (levels t).isSome := by
  rw [contains, h.get_eq]

/-! ## Changes -/

/-- The tree of a map with one more level. -/
theorem mem_insert (hw : map.Wf) (ht : IsI64 t) :
    (map.insert t l).Wf ∧ ∀ u v, (u, v) ∈ (map.insert t l).toList ↔
      u = t ∧ v = l ∨ u ≠ t ∧ (u, v) ∈ map.toList := by
  have hkey := keyNat_div_eq_zero ht
  obtain ⟨root⟩ := map
  cases root with
  | none => exact ⟨ht, fun u v => by simp [insert, toList, Node.toList]⟩
  | some root =>
      cases root with
      | inner children =>
          have hins := (Node.wf_inner.mp hw).2.insertAtInner (l := l) le_rfl ht hkey
          exact ⟨Node.wf_inner.mpr ⟨hins.ne_nil, hins.wf⟩, hins.mem⟩
      | leaf key value =>
          have hnil : Node.WfChildren 7 0 [] := Node.wfChildren_nil
          by_cases hk : key = t
          · subst hk
            have heq : insert ⟨some (.leaf key value)⟩ key l = ⟨some (.leaf key l)⟩ := by
              simp [insert, Node.insertAt]
            rw [heq]
            refine ⟨ht, fun u v => ?_⟩
            simp only [toList, Node.toList, List.mem_singleton, Prod.mk.injEq]
            constructor
            · exact Or.inl
            · rintro (hu | ⟨hne, rfl, -⟩)
              · exact hu
              · exact absurd rfl hne
          · -- The leaf is split.
            have hold := hnil.insertAtInner (l := value) le_rfl hw (keyNat_div_eq_zero hw)
            have hins := hold.wf.insertAtInner (l := l) le_rfl ht hkey
            have heq : insert ⟨some (.leaf key value)⟩ t l = ⟨some (.inner
                (Node.insertAtInner 7 (Node.insertAtInner 7 [] key value) t l))⟩ := by
              simp [insert, Node.insertAt, hk]
            rw [heq]
            refine ⟨Node.wf_inner.mpr ⟨hins.ne_nil, hins.wf⟩, fun u v => ?_⟩
            simp only [toList, Node.toList, List.mem_singleton, Prod.mk.injEq, hins.mem, hold.mem,
              Node.toLists, List.not_mem_nil, and_false, or_false]

theorem Holds.insert (h : map.Holds levels) (ht : IsI64 t)
    (hl : ∀ u, levels' u = if u = t then some l else levels u) :
    (map.insert t l).Holds levels' := by
  obtain ⟨hwf, hmem⟩ := mem_insert (l := l) h.wf ht
  refine ⟨hwf, fun u v => ?_⟩
  rw [hmem, h.mem, hl]
  split <;> simp_all [eq_comm]

/-- A tick is looked for that no level has. -/
theorem Wf.getMut_missing (hw : map.Wf) (f : Level → Level)
    (hnone : ∀ l, (t, l) ∉ map.toList) : map.getMut t f = (none, map) := by
  obtain ⟨root⟩ := map
  cases root with
  | none => rfl
  | some root =>
      cases root with
      | inner children => simp [ArtMap.getMut, Node.Wf.getMutLoop_none hw le_rfl f hnone]
      | leaf key value =>
          have hk : key ≠ t := by
            rintro rfl
            exact hnone value (List.mem_singleton_self _)
          simp [ArtMap.getMut, Node.getMutLoop, hk]

/-- The tree of a map with one level changed. -/
theorem Wf.getMut_found {v : Level} (hw : map.Wf) (f : Level → Level)
    (hv : (t, v) ∈ map.toList) :
    ∃ map', map.getMut t f = (some v, map') ∧ map'.Wf ∧
      ∀ u w, (u, w) ∈ map'.toList ↔
        if u = t then ∃ v, (t, v) ∈ map.toList ∧ w = f v else (u, w) ∈ map.toList := by
  obtain ⟨root⟩ := map
  cases root with
  | none => cases hv
  | some root =>
      cases root with
      | inner children =>
          obtain ⟨root', hmut, hch⟩ := Node.Wf.getMutLoop_eq hw le_rfl f hv
          cases root' with
          | leaf key value => exact hch.wf.elim
          | inner children' =>
              exact ⟨⟨some (.inner children')⟩, by simp [ArtMap.getMut, hmut], hch.wf, hch.mem⟩
      | leaf key value =>
          cases List.mem_singleton.mp hv
          refine ⟨⟨some (.leaf t (f v))⟩, by simp [ArtMap.getMut, Node.getMutLoop], hw,
            fun u w => ?_⟩
          simp only [toList, Node.toList, List.mem_singleton, Prod.mk.injEq]
          split <;> simp_all

/-- The level is found, and changed. -/
theorem Holds.getMut (h : map.Holds levels) (t : Int) (f : Level → Level)
    (hl : ∀ u, levels' u = if u = t then (levels t).map f else levels u) :
    (map.getMut t f).1 = levels t ∧ (map.getMut t f).2.Holds levels' := by
  cases hlev : levels t with
  | none =>
      have hsame : levels' = levels := by
        funext u
        rw [hl, hlev]
        split <;> simp_all
      rw [h.wf.getMut_missing f (h.levels_eq_none.mp hlev), hsame]
      exact ⟨rfl, h⟩
  | some v =>
      obtain ⟨map', heq, hwf, hmem⟩ := h.wf.getMut_found f ((h.mem t v).mpr hlev)
      rw [heq]
      refine ⟨rfl, hwf, fun u w => (hmem u w).trans ?_⟩
      rw [hl, hlev]
      split
      next =>
        simp only [h.mem, hlev, Option.some.injEq, Option.map_some]
        constructor
        · rintro ⟨x, hx, hw⟩
          exact hx ▸ hw.symm
        · exact fun hw => ⟨v, rfl, hw.symm⟩
      next => exact h.mem u w

/-- A tick is removed that no level has. -/
theorem Wf.remove_missing (hw : map.Wf) (hnone : ∀ l, (t, l) ∉ map.toList) :
    map.remove t = some (none, map) := by
  obtain ⟨root⟩ := map
  cases root with
  | none => rfl
  | some root =>
      cases root with
      | inner children => simp [ArtMap.remove, Node.Wf.removeAt_missing hw le_rfl hnone]
      | leaf key value =>
          have hk : key ≠ t := by
            rintro rfl
            exact hnone value (List.mem_singleton_self _)
          simp [ArtMap.remove, Node.removeAt, hk]

/-- The tree of a map with one level less. -/
theorem Wf.remove_found {v : Level} (hw : map.Wf) (hv : (t, v) ∈ map.toList) :
    ∃ map', map.remove t = some (some v, map') ∧ map'.Wf ∧
      ∀ u w, (u, w) ∈ map'.toList ↔ u ≠ t ∧ (u, w) ∈ map.toList := by
  obtain ⟨root⟩ := map
  cases root with
  | none => cases hv
  | some root =>
      cases root with
      | inner children =>
          obtain ⟨empty, root', hrem, hr⟩ := Node.Wf.removeAt_eq hw le_rfl hv
          cases empty with
          | true =>
              refine ⟨{}, by simp [ArtMap.remove, hrem], trivial, fun u w => ?_⟩
              have honly := hr.only rfl u w
              simp only [toList, List.not_mem_nil, false_iff, not_and]
              exact fun hne hm => hne (honly hm)
          | false =>
              cases root' with
              | leaf key value => exact (hr.wf rfl).elim
              | inner children' =>
                  exact ⟨⟨some (.inner children')⟩, by simp [ArtMap.remove, hrem], hr.wf rfl,
                    hr.mem rfl⟩
      | leaf key value =>
          cases List.mem_singleton.mp hv
          refine ⟨{}, by simp [ArtMap.remove, Node.removeAt], trivial, fun u w => ?_⟩
          simp only [toList, Node.toList, List.not_mem_nil, List.mem_singleton,
            Prod.mk.injEq, false_iff, not_and]
          exact fun hne hu => absurd hu hne

/-- The level is found, and goes.  No byte past the last is read. -/
theorem Holds.remove (h : map.Holds levels) (t : Int)
    (hl : ∀ u, levels' u = if u = t then none else levels u) :
    ∃ map', map.remove t = some (levels t, map') ∧ map'.Holds levels' := by
  cases hlev : levels t with
  | none =>
      have hsame : levels' = levels := by
        funext u
        rw [hl]
        split <;> simp_all
      exact ⟨map, h.wf.remove_missing (h.levels_eq_none.mp hlev), hsame ▸ h⟩
  | some v =>
      obtain ⟨map', heq, hwf, hmem⟩ := h.wf.remove_found ((h.mem t v).mpr hlev)
      refine ⟨map', heq, hwf, fun u w => ?_⟩
      rw [hmem, h.mem, hl]
      split <;> simp_all

/-! ## Ordered results -/

theorem bestTickAsk_eq (hw : map.Wf) : map.bestTickAsk = map.toList.head?.map Prod.fst := by
  obtain ⟨root⟩ := map
  cases root with
  | none => rfl
  | some root =>
      cases root with
      | leaf key value => rfl
      | inner children => exact Node.Wf.extreme_min hw

theorem bestTickBid_eq (hw : map.Wf) : map.bestTickBid = map.toList.getLast?.map Prod.fst := by
  obtain ⟨root⟩ := map
  cases root with
  | none => rfl
  | some root =>
      cases root with
      | leaf key value => rfl
      | inner children => exact Node.Wf.extreme_max hw

theorem walk_eq (hw : map.Wf) (ascending : Bool) (n : Nat) :
    map.walk ascending n = ((Node.directed ascending map.toList).take n).map Node.totalOf := by
  obtain ⟨root⟩ := map
  cases root with
  | none => cases ascending <;> simp [walk, toList, Node.directed]
  | some root =>
      have hroot : root.walk ascending n [] =
          Node.fillUp n [] ((Node.directed ascending root.toList).map Node.totalOf) := by
        cases root with
        | inner children => exact Node.Wf.walk_eq hw ascending n []
        | leaf key value =>
            have hleaf : Node.Wf 0 (keyNat key) (.leaf key value) := ⟨hw, rfl⟩
            exact hleaf.walk_eq ascending n []
      rw [Node.fillUp, List.nil_append, List.length_nil, Nat.sub_zero, ← List.map_take] at hroot
      exact hroot

/-- The levels of a lawful index are those of a tree that holds the same. -/
theorem Holds.levels_eq {ι : Type} (side : Side) [LevelIndex ι] [LawfulLevelIndex side ι] {i : ι}
    (h : map.Holds (LevelIndex.get i)) {l : List (Int × Level)} (hl : l.Perm map.toList)
    (hs : l.Pairwise fun a b => side.better a.1 b.1) : LawfulLevelIndex.levels side i = l := by
  have hirr : ∀ m : List (Int × Level), (m.Pairwise fun a b => side.better a.1 b.1) → m.Nodup := by
    refine fun m hm => hm.imp fun {p q} hpq heq => ?_
    exact side.better_irrefl q.1 (heq ▸ hpq)
  have hi : (LawfulLevelIndex.levels side i).Pairwise fun a b => side.better a.1 b.1 :=
    LawfulLevelIndex.sorted i
  refine List.Perm.eq_of_pairwise (fun p q _ _ hpq hqp => absurd hqp (Side.better_asymm hpq))
    hi hs ?_
  refine (List.perm_ext_iff_of_nodup (hirr _ hi) (hirr _ hs)).mpr fun p => ?_
  rw [hl.mem_iff]
  exact (LawfulLevelIndex.mem_levels i p.1 p.2).trans (h.mem p.1 p.2).symm

end ArtMap

/-! ## Indexes -/

section Index

variable {ι : Type} [LevelIndex ι]

/-- The tree of the asks holds the levels of the other index. -/
def SameAsks (index : ArtAskIndex) (other : ι) : Prop := index.map.Holds (LevelIndex.get other)

/-- The tree of the bids holds the levels of the other index. -/
def SameBids (index : ArtBidIndex) (other : ι) : Prop := index.map.Holds (LevelIndex.get other)

theorem ArtMap.Holds.asks [LawfulLevelIndex .sell ι] {map : ArtMap} {i : ι}
    (h : map.Holds (LevelIndex.get i)) :
    map.bestTickAsk = LevelIndex.bestTick i ∧ ∀ n, map.depthAsk n = LevelIndex.depth i n := by
  have hlevels := h.levels_eq .sell (.refl _) h.wf.pairwise
  refine ⟨?_, fun n => ?_⟩
  · have hbest : LevelIndex.bestTick i = (LawfulLevelIndex.levels .sell i).head?.map Prod.fst :=
      LawfulLevelIndex.bestTick_eq i
    rw [ArtMap.bestTickAsk_eq h.wf, hbest, hlevels]
  · have hdepth : LevelIndex.depth i n =
        ((LawfulLevelIndex.levels .sell i).take n).map Node.totalOf := LawfulLevelIndex.depth_eq i n
    rw [ArtMap.depthAsk, ArtMap.walk_eq h.wf, hdepth, hlevels]
    rfl

theorem ArtMap.Holds.bids [LawfulLevelIndex .buy ι] {map : ArtMap} {i : ι}
    (h : map.Holds (LevelIndex.get i)) :
    map.bestTickBid = LevelIndex.bestTick i ∧ ∀ n, map.depthBid n = LevelIndex.depth i n := by
  have hlevels := h.levels_eq .buy (List.reverse_perm _)
    (List.pairwise_reverse.mpr h.wf.pairwise)
  refine ⟨?_, fun n => ?_⟩
  · have hbest : LevelIndex.bestTick i = (LawfulLevelIndex.levels .buy i).head?.map Prod.fst :=
      LawfulLevelIndex.bestTick_eq i
    rw [ArtMap.bestTickBid_eq h.wf, hbest, hlevels, List.head?_reverse]
  · have hdepth : LevelIndex.depth i n =
        ((LawfulLevelIndex.levels .buy i).take n).map Node.totalOf := LawfulLevelIndex.depth_eq i n
    rw [ArtMap.depthBid, ArtMap.walk_eq h.wf, hdepth, hlevels]
    rfl

theorem ArtMap.Holds.getOrInsertWith (side : Side) [LawfulLevelIndex side ι] {map : ArtMap} {i : ι}
    (h : map.Holds (LevelIndex.get i)) {t : Int} (ht : IsI64 t) (hnew : LevelIndex.get i t = none)
    (l : Level) (f : Level → Level) :
    (map.getOrInsertWith t l f).1 = some l ∧
      (map.getOrInsertWith t l f).2.Holds
        (LevelIndex.get (LevelIndex.getOrInsertWith i t l f)) := by
  have hins : (map.insert t l).Holds fun u => if u = t then some l else LevelIndex.get i u :=
    h.insert ht fun u => rfl
  have hget : ∀ u, LevelIndex.get (LevelIndex.getOrInsertWith i t l f) u =
      if u = t then ((if t = t then some l else LevelIndex.get i t).map f)
      else (if u = t then some l else LevelIndex.get i u) := by
    intro u
    rw [LawfulLevelIndex.get_getOrInsertWith side i t l f u hnew, if_pos rfl, Option.map_some]
    split
    next => rfl
    next hu => rfl
  obtain ⟨hfst, hsnd⟩ := hins.getMut t f hget
  exact ⟨hfst.trans (if_pos rfl), hsnd⟩

theorem removeAsk_eq [LawfulLevelIndex .sell ι] {index : ArtAskIndex} {i : ι}
    (h : SameAsks index i) (t : Int) :
    ∃ map, LevelIndex.remove index t = (LevelIndex.get i t, ⟨map⟩) ∧
      map.Holds (LevelIndex.get (LevelIndex.remove i t).2) := by
  obtain ⟨map, hrem, hmap⟩ := h.remove t (LawfulLevelIndex.get_remove .sell i t)
  exact ⟨map, by simp [LevelIndex.remove, hrem], hmap⟩

theorem removeBid_eq [LawfulLevelIndex .buy ι] {index : ArtBidIndex} {i : ι}
    (h : SameBids index i) (t : Int) :
    ∃ map, LevelIndex.remove index t = (LevelIndex.get i t, ⟨map⟩) ∧
      map.Holds (LevelIndex.get (LevelIndex.remove i t).2) := by
  obtain ⟨map, hrem, hmap⟩ := h.remove t (LawfulLevelIndex.get_remove .buy i t)
  exact ⟨map, by simp [LevelIndex.remove, hrem], hmap⟩

/-- A radix tree of asks can stand for any lawful index. -/
theorem sameAsks_sim [LawfulLevelIndex .sell ι] :
    IndexSim (SameAsks : ArtAskIndex → ι → Prop) where
  default := ArtMap.holds_empty (LawfulLevelIndex.get_default .sell)
  get h t := h.get_eq t
  getMut h t f := (h.getMut t f (LawfulLevelIndex.get_getMut .sell _ t f)).2
  contains h t := (h.contains_eq t).trans (LawfulLevelIndex.contains_eq .sell _ t).symm
  remove_fst h t := by
    obtain ⟨map, hrem, -⟩ := removeAsk_eq h t
    rw [hrem, LawfulLevelIndex.remove_fst .sell]
  remove_snd h t := by
    obtain ⟨map, hrem, hmap⟩ := removeAsk_eq h t
    rw [hrem]
    exact hmap
  bestTick h := h.asks.1
  depth h n := h.asks.2 n
  getOrInsertWith h t ht hnew l f := by
    have hnone := (h.contains_eq t).symm.trans hnew
    rw [Option.isSome_eq_false_iff, Option.isNone_iff_eq_none] at hnone
    exact (h.getOrInsertWith .sell ht hnone l f).2

/-- A radix tree of bids can stand for any lawful index. -/
theorem sameBids_sim [LawfulLevelIndex .buy ι] :
    IndexSim (SameBids : ArtBidIndex → ι → Prop) where
  default := ArtMap.holds_empty (LawfulLevelIndex.get_default .buy)
  get h t := h.get_eq t
  getMut h t f := (h.getMut t f (LawfulLevelIndex.get_getMut .buy _ t f)).2
  contains h t := (h.contains_eq t).trans (LawfulLevelIndex.contains_eq .buy _ t).symm
  remove_fst h t := by
    obtain ⟨map, hrem, -⟩ := removeBid_eq h t
    rw [hrem, LawfulLevelIndex.remove_fst .buy]
  remove_snd h t := by
    obtain ⟨map, hrem, hmap⟩ := removeBid_eq h t
    rw [hrem]
    exact hmap
  bestTick h := h.bids.1
  depth h n := h.bids.2 n
  getOrInsertWith h t ht hnew l f := by
    have hnone := (h.contains_eq t).symm.trans hnew
    rw [Option.isSome_eq_false_iff, Option.isNone_iff_eq_none] at hnone
    exact (h.getOrInsertWith .buy ht hnone l f).2

end Index

/-! ## Sequences of operations -/

/-- An operation on an index. -/
inductive IndexOp where
  | insert (tick : Int) (level : Level)
  | get (tick : Int)
  /-- The level is changed through the reference. -/
  | getMut (tick : Int) (f : Level → Level)
  | contains (tick : Int)
  | remove (tick : Int)
  | bestTick
  | depth (n : Nat)
  | getOrInsertWith (tick : Int) (level : Level) (f : Level → Level)

/-- The result of an operation. -/
inductive IndexResult where
  | done
  | level (level : Option Level)
  | flag (found : Bool)
  | tick (tick : Option Int)
  | levels (levels : List (Int × Int))
  | panic
deriving DecidableEq

section Ops

variable {ι : Type} [LevelIndex ι]

/-- An operation on an ordered map. -/
def applyOp (i : ι) : IndexOp → IndexResult × ι
  | .insert t l => (.done, LevelIndex.insert i t l)
  | .get t => (.level (LevelIndex.get i t), i)
  | .getMut t f => (.level (LevelIndex.get i t), LevelIndex.getMut i t f)
  | .contains t => (.flag (LevelIndex.contains i t), i)
  | .remove t => (.level (LevelIndex.remove i t).1, (LevelIndex.remove i t).2)
  | .bestTick => (.tick (LevelIndex.bestTick i), i)
  | .depth n => (.levels (LevelIndex.depth i n), i)
  | .getOrInsertWith t l f =>
      (.level (some ((LevelIndex.get i t).getD l)), LevelIndex.getOrInsertWith i t l f)

/-- An operation on a radix tree, with the best tick and the depth of its side. -/
def ArtMap.applyOp (best : ArtMap → Option Int) (depth : ArtMap → Nat → List (Int × Int))
    (map : ArtMap) : IndexOp → IndexResult × ArtMap
  | .insert t l => (.done, map.insert t l)
  | .get t => (.level (map.get t), map)
  | .getMut t f => (.level (map.getMut t f).1, (map.getMut t f).2)
  | .contains t => (.flag (map.contains t), map)
  | .remove t =>
      match map.remove t with
      | none => (.panic, map)
      | some (l, map) => (.level l, map)
  | .bestTick => (.tick (best map), map)
  | .depth n => (.levels (depth map n), map)
  | .getOrInsertWith t l f =>
      match map.getOrInsertWith t l f with
      | (none, map) => (.panic, map)
      | (some l, map) => (.level (some l), map)

/-- Ticks that are inserted are 64-bit integers, and the last operation is for a
missing tick. -/
def IndexOp.Allowed (i : ι) : IndexOp → Prop
  | .insert t _ => IsI64 t
  | .getOrInsertWith t _ _ => IsI64 t ∧ LevelIndex.get i t = none
  | _ => True

/-- All operations of a sequence are allowed when they come. -/
def OpsAllowed : ι → List IndexOp → Prop
  | _, [] => True
  | i, op :: ops => op.Allowed i ∧ OpsAllowed (MatchCoreHp.applyOp i op).2 ops

omit [LevelIndex ι] in
/-- The results of a sequence of operations. -/
def results {σ : Type} (apply : σ → IndexOp → IndexResult × σ) (s : σ) :
    List IndexOp → List IndexResult
  | [] => []
  | op :: ops => (apply s op).1 :: results apply (apply s op).2 ops

variable (side : Side) {best : ArtMap → Option Int} {depth : ArtMap → Nat → List (Int × Int)}
  {map : ArtMap} {i : ι}

/-- An allowed operation gives the same result, and the maps hold the same again. -/
theorem applyOp_eq [LawfulLevelIndex side ι] (h : map.Holds (LevelIndex.get i))
    (hbest : best map = LevelIndex.bestTick i)
    (hdepth : ∀ n, depth map n = LevelIndex.depth i n) {op : IndexOp} (hop : op.Allowed i) :
    (map.applyOp best depth op).1 = (applyOp i op).1 ∧
      (map.applyOp best depth op).2.Holds (LevelIndex.get (applyOp i op).2) := by
  cases op with
  | insert t l => exact ⟨rfl, h.insert hop (LawfulLevelIndex.get_insert side i t l)⟩
  | get t => exact ⟨congrArg IndexResult.level (h.get_eq t), h⟩
  | getMut t f =>
      obtain ⟨hfst, hsnd⟩ := h.getMut t f (LawfulLevelIndex.get_getMut side i t f)
      exact ⟨congrArg IndexResult.level hfst, hsnd⟩
  | contains t =>
      have hcontains := (h.contains_eq t).trans (LawfulLevelIndex.contains_eq side i t).symm
      exact ⟨congrArg IndexResult.flag hcontains, h⟩
  | remove t =>
      obtain ⟨map', hrem, hmap⟩ := h.remove t (LawfulLevelIndex.get_remove side i t)
      rw [ArtMap.applyOp, hrem, applyOp, LawfulLevelIndex.remove_fst side i t]
      exact ⟨rfl, hmap⟩
  | bestTick => exact ⟨congrArg IndexResult.tick hbest, h⟩
  | depth n => exact ⟨congrArg IndexResult.levels (hdepth n), h⟩
  | getOrInsertWith t l f =>
      obtain ⟨hfst, hsnd⟩ := h.getOrInsertWith side hop.1 hop.2 l f
      have heq : map.getOrInsertWith t l f = (some l, (map.getOrInsertWith t l f).2) :=
        Prod.ext hfst rfl
      rw [ArtMap.applyOp, heq, applyOp, hop.2]
      exact ⟨rfl, hsnd⟩

/-- So does an allowed sequence of operations. -/
theorem results_eq [LawfulLevelIndex side ι]
    (hbest : ∀ {map : ArtMap} {i : ι}, map.Holds (LevelIndex.get i) →
      best map = LevelIndex.bestTick i ∧ ∀ n, depth map n = LevelIndex.depth i n)
    (h : map.Holds (LevelIndex.get i)) {ops : List IndexOp} (hops : OpsAllowed i ops) :
    results (ArtMap.applyOp best depth) map ops = results applyOp i ops := by
  induction ops generalizing map i with
  | nil => rfl
  | cons op ops ih =>
      obtain ⟨hfst, hsnd⟩ := applyOp_eq side h (hbest h).1 (hbest h).2 hops.1
      rw [results, results, hfst, ih hsnd hops.2]

end Ops

/-- The engine with radix trees as indexes. -/
abbrev ArtEngine := HpEngine ArtBidIndex ArtAskIndex

/-- **The radix tree equals the ordered map.**  Every sequence of operations from
the empty index gives the same results on both, for asks and for bids, and engines
with either index show the same events and depth for every sequence of commands. -/
theorem art_parity :
    (∀ ops, OpsAllowed (LevelIndex.default : BTreeAskIndex) ops →
      results (ArtMap.applyOp ArtMap.bestTickAsk ArtMap.depthAsk) {} ops =
        results applyOp (LevelIndex.default : BTreeAskIndex) ops) ∧
    (∀ ops, OpsAllowed (LevelIndex.default : BTreeBidIndex) ops →
      results (ArtMap.applyOp ArtMap.bestTickBid ArtMap.depthBid) {} ops =
        results applyOp (LevelIndex.default : BTreeBidIndex) ops) ∧
    ∀ cmds : List HpCommand, (∀ cmd ∈ cmds, cmd.TickFits) →
      (HpEngine.new : ArtEngine).trace cmds = (HpEngine.new : BTreeEngine).trace cmds ∧
      (HpEngine.withCapacity : ArtEngine).trace cmds =
        (HpEngine.withCapacity : BTreeEngine).trace cmds := by
  refine ⟨fun ops hops => ?_, fun ops hops => ?_, fun cmds hcmds => ⟨?_, ?_⟩⟩
  · exact results_eq .sell (fun h => h.asks)
      (ArtMap.holds_empty (LawfulLevelIndex.get_default .sell)) hops
  · exact results_eq .buy (fun h => h.bids)
      (ArtMap.holds_empty (LawfulLevelIndex.get_default .buy)) hops
  · exact (engineSim_new sameBids_sim sameAsks_sim).trace_eq sameBids_sim sameAsks_sim
      engineInv_new hcmds
  · exact (engineSim_withCapacity sameBids_sim sameAsks_sim).trace_eq sameBids_sim sameAsks_sim
      engineInv_withCapacity hcmds

/-- The ticks at both ends of the range, an overwritten one and a missing one. -/
def extremeOps : List IndexOp :=
  [.insert (-2 ^ 63) ⟨1, [1]⟩, .insert (2 ^ 63 - 1) ⟨2, [2]⟩, .insert (-1) ⟨3, [3]⟩,
    .insert (-1) ⟨4, [4]⟩, .getMut (-1) fun l => l.push 5 1,
    .getOrInsertWith 0 {} fun l => l.push 6 7, .depth 3, .remove (-2 ^ 63), .bestTick, .get (-1)]

theorem art_parity_extremes :
    results (ArtMap.applyOp ArtMap.bestTickAsk ArtMap.depthAsk) {} extremeOps =
        results applyOp (LevelIndex.default : BTreeAskIndex) extremeOps ∧
      results applyOp (LevelIndex.default : BTreeAskIndex) extremeOps =
        [.done, .done, .done, .done, .level (some ⟨4, [4]⟩), .level (some {}),
          .levels [(-2 ^ 63, 1), (-1, 5), (0, 7)], .level (some ⟨1, [1]⟩), .tick (some (-1)),
          .level (some ⟨5, [4, 5]⟩)] ∧
      (HpEngine.new : ArtEngine).trace [.limit .sell (-3) 5 1 7, .limit .buy 2 6 2 8] =
        (HpEngine.new : BTreeEngine).trace [.limit .sell (-3) 5 1 7, .limit .buy 2 6 2 8] := by
  have hops : OpsAllowed (LevelIndex.default : BTreeAskIndex) extremeOps :=
    ⟨(by decide : IsI64 _), (by decide : IsI64 _), (by decide : IsI64 _), (by decide : IsI64 _),
      trivial, ⟨by decide, by decide +kernel⟩, trivial, trivial, trivial, trivial, trivial⟩
  exact ⟨art_parity.1 extremeOps hops, by decide +kernel, (art_parity.2.2 _ (by decide)).1⟩

end MatchCoreHp
