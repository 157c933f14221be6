import MatchRust.Hp.ArtIndex

/-!
# What a radix tree holds

A tree holds a sorted list of ticks and levels (`Node.toList`), and its functions
are those of a finite map on it.  The invariant `Node.Wf h p` says that every leaf
below the node is `h` bytes further down, that the bytes read so far are the
digits of `p`, and that no inner node below is empty.  So a leaf at depth eight is
at the end of the chain of its own bytes.

The order of the bytes is that of the ticks because the key is the tick moved to
the unsigned range (`toNat_keyBits`), and its bytes are the digits of that number
in base 256.
-/

namespace MatchCoreHp

/-! ## Keys -/

/-- A signed 64-bit integer. -/
def IsI64 (t : Int) : Prop := -2 ^ 63 ≤ t ∧ t < 2 ^ 63

instance (t : Int) : Decidable (IsI64 t) := inferInstanceAs (Decidable (_ ∧ _))

/-- A tick, moved to the unsigned range. -/
def keyNat (t : Int) : Nat := (t + 2 ^ 63).toNat

theorem keyNat_lt {t : Int} (h : IsI64 t) : keyNat t < 256 ^ 8 := by
  have h1 := h.2
  rw [keyNat]
  omega

theorem lt_of_keyNat_lt {s t : Int} (h : keyNat s < keyNat t) : s < t := by
  rw [keyNat, keyNat] at h
  omega

theorem keyNat_injective {s t : Int} (hs : IsI64 s) (ht : IsI64 t) (h : keyNat s = keyNat t) :
    s = t := by
  have h0 := hs.1
  have h1 := ht.1
  rw [keyNat, keyNat] at h
  omega

/-- Flipping the highest bit adds it. -/
theorem xor_two_pow_63 {n : Nat} (h : n < 2 ^ 64) : n ^^^ 2 ^ 63 = (n + 2 ^ 63) % 2 ^ 64 := by
  have hdiv := Nat.xor_div_two_pow (a := n) (b := 2 ^ 63) (n := 63)
  have hmod := Nat.xor_mod_two_pow (a := n) (b := 2 ^ 63) (n := 63)
  rw [Nat.div_self (by decide)] at hdiv
  rw [Nat.mod_self, Nat.xor_zero] at hmod
  have hn : n / 2 ^ 63 = 0 ∨ n / 2 ^ 63 = 1 := by omega
  rcases hn with hn | hn
  · have hone : 0 ^^^ 1 = 1 := rfl
    rw [hn] at hdiv
    omega
  · have hzero : 1 ^^^ 1 = 0 := rfl
    rw [hn] at hdiv
    omega

theorem toNat_keyBits {t : Int} (h : IsI64 t) : (keyBits t).toNat = keyNat t := by
  obtain ⟨h0, h1⟩ := h
  rw [keyBits, BitVec.toNat_xor, show (1#64 <<< 63).toNat = 2 ^ 63 from rfl,
    xor_two_pow_63 (BitVec.isLt _), BitVec.toNat_ofInt, keyNat]
  omega

/-- The bytes of a tick are the digits of its key. -/
theorem val_keyByte {t : Int} (h : IsI64 t) {k : Nat} (hk : k ≤ 7) :
    (keyByte t (7 - k)).val = keyNat t / 256 ^ k % 256 := by
  rw [keyByte, BitVec.val_toFin, BitVec.extractLsb'_toNat, toNat_keyBits h,
    Nat.shiftRight_eq_div_pow, Nat.sub_sub_self hk, pow_mul]
  rfl

/-- The byte that is read at `h` bytes from the end leads on to the key. -/
theorem keyByte_eq {t : Int} (ht : IsI64 t) {h p : Nat} (hh : h ≤ 7) {b : Fin 256}
    (hb : keyNat t / 256 ^ h = p * 256 + b) : b = keyByte t (7 - h) := by
  refine Fin.ext ?_
  have hlt := b.isLt
  rw [val_keyByte ht hh, hb]
  omega

theorem div_keyByte {t : Int} (ht : IsI64 t) {h p : Nat} (hh : h ≤ 7)
    (hp : keyNat t / 256 ^ (h + 1) = p) : keyNat t / 256 ^ h = p * 256 + keyByte t (7 - h) := by
  rw [val_keyByte ht hh, ← hp, pow_succ, ← Nat.div_div_eq_div_mul]
  omega

/-! ## Entries -/

namespace Node

mutual

/-- The ticks and levels below a node, in the order of the bytes. -/
def toList : Node → List (Int × Level)
  | .leaf key value => [(key, value)]
  | .inner children => toLists children

/-- The ticks and levels below the children. -/
def toLists : List (Fin 256 × Node) → List (Int × Level)
  | [] => []
  | (_, child) :: children => toList child ++ toLists children

end

theorem mem_toLists {children : List (Fin 256 × Node)} {e : Int × Level} :
    e ∈ toLists children ↔ ∃ b c, (b, c) ∈ children ∧ e ∈ c.toList := by
  induction children with
  | nil => simp [toLists]
  | cons p children ih =>
      obtain ⟨b, c⟩ := p
      rw [toLists, List.mem_append, ih]
      constructor
      · rintro (he | ⟨b', c', hm, he⟩)
        · exact ⟨b, c, List.mem_cons_self .., he⟩
        · exact ⟨b', c', List.mem_cons_of_mem _ hm, he⟩
      · rintro ⟨b', c', hm, he⟩
        rcases List.mem_cons.mp hm with heq | hm
        · cases heq
          exact Or.inl he
        · exact Or.inr ⟨b', c', hm, he⟩

/-- A node whose leaves are `h` bytes further down, with the bytes of `p` read. -/
def Wf : Nat → Nat → Node → Prop
  | 0, p, .leaf key _ => IsI64 key ∧ keyNat key = p
  | h + 1, p, .inner children =>
      children ≠ [] ∧ SortedMap.Sorted children ∧
        ∀ b c, (b, c) ∈ children → Wf h (p * 256 + b) c
  | _, _, _ => False

/-- The children of such a node.  There may be none. -/
structure WfChildren (h p : Nat) (children : List (Fin 256 × Node)) : Prop where
  sorted : SortedMap.Sorted children
  wf : ∀ b c, (b, c) ∈ children → Wf h (p * 256 + b) c

variable {h p : Nat} {node : Node} {children : List (Fin 256 × Node)} {t u : Int} {l l' : Level}

theorem wf_inner : Wf (h + 1) p (.inner children) ↔ children ≠ [] ∧ WfChildren h p children :=
  ⟨fun ⟨hne, hs, hw⟩ => ⟨hne, hs, hw⟩, fun ⟨hne, hs, hw⟩ => ⟨hne, hs, hw⟩⟩

theorem wfChildren_nil : WfChildren h p [] := ⟨SortedMap.sorted_nil, nofun⟩

/-- The ticks below a node have the bytes that were read. -/
theorem Wf.key (hw : Wf h p node) (he : (t, l) ∈ node.toList) :
    IsI64 t ∧ keyNat t / 256 ^ h = p := by
  induction h generalizing p node with
  | zero =>
      cases node with
      | inner children => exact hw.elim
      | leaf key value =>
          rw [toList, List.mem_singleton] at he
          cases he
          exact ⟨hw.1, by rw [pow_zero, Nat.div_one, hw.2]⟩
  | succ h ih =>
      cases node with
      | leaf key value => exact hw.elim
      | inner children =>
          rw [toList, mem_toLists] at he
          obtain ⟨b, c, hm, he⟩ := he
          obtain ⟨ht, hk⟩ := ih (hw.2.2 b c hm) he
          refine ⟨ht, ?_⟩
          have hlt := b.isLt
          rw [pow_succ, ← Nat.div_div_eq_div_mul, hk]
          omega

/-- A tick below the children is below the child of its byte. -/
theorem WfChildren.mem_iff (hw : WfChildren h p children) (hh : h ≤ 7) :
    (t, l) ∈ toLists children ↔ ∃ c, (keyByte t (7 - h), c) ∈ children ∧ (t, l) ∈ c.toList := by
  rw [mem_toLists]
  constructor
  · rintro ⟨b, c, hm, he⟩
    obtain ⟨ht, hk⟩ := (hw.wf b c hm).key he
    rw [← keyByte_eq ht hh hk]
    exact ⟨c, hm, he⟩
  · exact fun ⟨c, hm, he⟩ => ⟨_, c, hm, he⟩

/-- A well-formed node is not empty. -/
theorem Wf.toList_ne_nil (hw : Wf h p node) : node.toList ≠ [] := by
  induction h generalizing p node with
  | zero =>
      cases node with
      | inner children => exact hw.elim
      | leaf key value => simp [toList]
  | succ h ih =>
      cases node with
      | leaf key value => exact hw.elim
      | inner children =>
          cases children with
          | nil => exact absurd rfl hw.1
          | cons q children =>
              have hq := ih (hw.2.2 q.1 q.2 (List.mem_cons_self ..))
              rw [toList, toLists]
              exact List.append_ne_nil_of_left_ne_nil hq _

/-- The ticks grow from left to right. -/
theorem Wf.pairwise (hw : Wf h p node) : node.toList.Pairwise fun a b => a.1 < b.1 := by
  induction h generalizing p node with
  | zero =>
      cases node with
      | inner children => exact hw.elim
      | leaf key value => simp [toList]
  | succ h ih =>
      cases node with
      | leaf key value => exact hw.elim
      | inner children =>
          obtain ⟨-, hs, hc⟩ := hw
          rw [toList]
          -- Ticks of different children differ in the byte of the children.
          induction children with
          | nil => simp [toLists]
          | cons q children ihc =>
              obtain ⟨b, c⟩ := q
              have hrest : ∀ b' c', (b', c') ∈ children → Wf h (p * 256 + b') c' :=
                fun b' c' hm => hc b' c' (List.mem_cons_of_mem _ hm)
              have hfirst := hc b c (List.mem_cons_self ..)
              rw [toLists, List.pairwise_append]
              refine ⟨ih hfirst, ihc hs.tail hrest, ?_⟩
              rintro ⟨t, l⟩ he ⟨u, l'⟩ he'
              obtain ⟨b', c', hm, he'⟩ := mem_toLists.mp he'
              have hbb : b < b' := hs.head_lt hm
              have hk := (hfirst.key he).2
              have hk' := ((hrest b' c' hm).key he').2
              refine lt_of_keyNat_lt (Nat.lt_of_div_lt_div (c := 256 ^ h) ?_)
              rw [hk, hk']
              omega

/-! ## Lookup -/

/-- Lookup finds what is below the node. -/
theorem Wf.getLoop_eq (hw : Wf (h + 1) p node) (hh : h ≤ 7) :
    getLoop t h node = some l ↔ (t, l) ∈ node.toList := by
  induction h generalizing p node with
  | zero =>
      cases node with
      | leaf key value => exact hw.elim
      | inner children =>
          obtain ⟨-, hc⟩ := wf_inner.mp hw
          rw [getLoop, toList, hc.mem_iff (Nat.zero_le 7), Option.bind_eq_some_iff]
          refine exists_congr fun c => ?_
          rw [SortedMap.get_eq_some hc.sorted]
          refine and_congr_right fun hm => ?_
          have hleaf := hc.wf _ c hm
          cases c with
          | inner children => exact hleaf.elim
          | leaf key value =>
              rw [terminalGet, toList, List.mem_singleton, Prod.mk.injEq]
              split <;> simp_all [eq_comm]
  | succ h ih =>
      cases node with
      | leaf key value => exact hw.elim
      | inner children =>
          obtain ⟨-, hc⟩ := wf_inner.mp hw
          rw [getLoop, toList, hc.mem_iff hh, Option.bind_eq_some_iff]
          refine exists_congr fun c => ?_
          rw [SortedMap.get_eq_some hc.sorted]
          exact and_congr_right fun hm => ih (hc.wf _ c hm) (by omega)

/-! ## Changes of a child -/

theorem WfChildren.insert {b : Fin 256} {c : Node} (hw : WfChildren h p children)
    (hc : Wf h (p * 256 + b) c) : WfChildren h p (SortedMap.insert b c children) := by
  refine ⟨SortedMap.sorted_insert hw.sorted, fun b' d hd => ?_⟩
  rcases (SortedMap.mem_insert hw.sorted).mp hd with ⟨rfl, rfl⟩ | ⟨-, hd⟩
  · exact hc
  · exact hw.wf b' d hd

/-- A new child has the ticks of its byte, and the others stay. -/
theorem WfChildren.mem_insert {b : Fin 256} {c : Node} (hw : WfChildren h p children)
    (hh : h ≤ 7) (hc : Wf h (p * 256 + b) c) :
    (t, l) ∈ toLists (SortedMap.insert b c children) ↔
      if keyByte t (7 - h) = b then (t, l) ∈ c.toList else (t, l) ∈ toLists children := by
  rw [(hw.insert hc).mem_iff hh, hw.mem_iff hh]
  simp only [SortedMap.mem_insert hw.sorted]
  split
  next hb => simp [hb]
  next hb => simp [hb]

/-- The ticks of one byte are those of its child. -/
theorem WfChildren.mem_child {b : Fin 256} {c : Node} (hw : WfChildren h p children)
    (hh : h ≤ 7) (hm : (b, c) ∈ children) (hb : keyByte t (7 - h) = b) :
    (t, l) ∈ toLists children ↔ (t, l) ∈ c.toList := by
  rw [hw.mem_iff hh, hb]
  exact ⟨fun ⟨d, hd, he⟩ => hw.sorted.unique hd hm ▸ he, fun he => ⟨c, hm, he⟩⟩

/-! ## Changes in place -/

/-- A node after a change of the level of one tick. -/
structure Changed (h p : Nat) (t : Int) (f : Level → Level) (node node' : Node) : Prop where
  wf : Wf h p node'
  mem : ∀ u l, (u, l) ∈ node'.toList ↔
    if u = t then ∃ v, (t, v) ∈ node.toList ∧ l = f v else (u, l) ∈ node.toList

/-- A change of a child is a change of the node. -/
theorem Changed.child {f : Level → Level} {c c' : Node}
    (hc : Changed h (p * 256 + keyByte t (7 - h)) t f c c') (hw : WfChildren h p children)
    (hh : h ≤ 7) (hm : (keyByte t (7 - h), c) ∈ children) :
    Changed (h + 1) p t f (.inner children)
      (.inner (SortedMap.insert (keyByte t (7 - h)) c' children)) := by
  refine ⟨wf_inner.mpr ⟨SortedMap.insert_ne_nil _ _ _, hw.insert hc.wf⟩, fun u l => ?_⟩
  simp only [toList, hw.mem_insert hh hc.wf]
  split
  next hb =>
    rw [hc.mem u l]
    simp only [hw.mem_child hh hm hb, hw.mem_child hh hm rfl]
  next hb =>
    have hu : u ≠ t := fun hu => hb (hu ▸ rfl)
    rw [if_neg hu]

/-- A change finds the level, and changes nothing else. -/
theorem Wf.getMutLoop_eq (hw : Wf (h + 1) p node) (hh : h ≤ 7) (f : Level → Level)
    (he : (t, l) ∈ node.toList) :
    ∃ node', getMutLoop t f h node = some (l, node') ∧ Changed (h + 1) p t f node node' := by
  induction h generalizing p node with
  | zero =>
      cases node with
      | leaf key value => exact hw.elim
      | inner children =>
          obtain ⟨-, hc⟩ := wf_inner.mp hw
          rw [toList, hc.mem_iff (Nat.zero_le 7)] at he
          obtain ⟨c, hm, he⟩ := he
          have hleaf := hc.wf _ c hm
          cases c with
          | inner children => exact hleaf.elim
          | leaf key value =>
              rw [toList, List.mem_singleton] at he
              cases he
              have hchanged :
                  Changed 0 (p * 256 + keyByte t 7) t f (.leaf t l) (.leaf t (f l)) := by
                refine ⟨hleaf, fun u v => ?_⟩
                simp only [toList, List.mem_singleton, Prod.mk.injEq]
                split <;> simp_all
              refine ⟨_, ?_, hchanged.child hc (Nat.zero_le 7) hm⟩
              rw [getMutLoop, changeChild, (SortedMap.get_eq_some hc.sorted).mpr hm]
              simp [terminalGetMut]
  | succ h ih =>
      cases node with
      | leaf key value => exact hw.elim
      | inner children =>
          obtain ⟨-, hc⟩ := wf_inner.mp hw
          rw [toList, hc.mem_iff hh] at he
          obtain ⟨c, hm, he⟩ := he
          obtain ⟨c', hmut, hchanged⟩ := ih (hc.wf _ c hm) (by omega) he
          refine ⟨_, ?_, hchanged.child hc hh hm⟩
          rw [getMutLoop, changeChild, (SortedMap.get_eq_some hc.sorted).mpr hm]
          simp [hmut]

/-- A tick that is not there is not found. -/
theorem Wf.getMutLoop_none (hw : Wf (h + 1) p node) (hh : h ≤ 7) (f : Level → Level)
    (he : ∀ l, (t, l) ∉ node.toList) : getMutLoop t f h node = none := by
  induction h generalizing p node with
  | zero =>
      cases node with
      | leaf key value => exact hw.elim
      | inner children =>
          obtain ⟨-, hc⟩ := wf_inner.mp hw
          rw [getMutLoop, changeChild]
          split
          next => rfl
          next c hget =>
            have hm := (SortedMap.get_eq_some hc.sorted).mp hget
            have hleaf := hc.wf _ c hm
            cases c with
            | inner children => exact hleaf.elim
            | leaf key value =>
                have hne : key ≠ t := by
                  rintro rfl
                  refine he value ?_
                  rw [toList, hc.mem_iff (Nat.zero_le 7)]
                  exact ⟨_, hm, List.mem_singleton_self _⟩
                rw [terminalGetMut, if_neg hne]
                rfl
  | succ h ih =>
      cases node with
      | leaf key value => exact hw.elim
      | inner children =>
          obtain ⟨-, hc⟩ := wf_inner.mp hw
          rw [getMutLoop, changeChild]
          split
          next => rfl
          next c hget =>
            have hm := (SortedMap.get_eq_some hc.sorted).mp hget
            rw [ih (hc.wf _ c hm) (by omega) fun l hl => he l ?_]
            · rfl
            · rw [toList, hc.mem_iff hh]
              exact ⟨c, hm, hl⟩

/-! ## Insertion -/

/-- The children of the child of a byte, none if it is missing. -/
theorem WfChildren.childrenAt {b : Fin 256} (hw : WfChildren (h + 1) p children)
    (hh : h + 1 ≤ 7) :
    ∃ inside, (SortedMap.get b children).getD (.inner []) = .inner inside ∧
      WfChildren h (p * 256 + b) inside ∧
      ∀ u v, keyByte u (7 - (h + 1)) = b →
        ((u, v) ∈ toLists children ↔ (u, v) ∈ toLists inside) := by
  cases hget : SortedMap.get b children with
  | none =>
      refine ⟨[], rfl, wfChildren_nil, fun u v hu => ?_⟩
      have hnone := (SortedMap.get_eq_none hw.sorted).mp hget
      rw [hw.mem_iff hh, hu]
      simp [hnone, toLists]
  | some c =>
      have hm := (SortedMap.get_eq_some hw.sorted).mp hget
      have hc := hw.wf b c hm
      cases c with
      | leaf key value => exact hc.elim
      | inner inside =>
          refine ⟨inside, rfl, (wf_inner.mp hc).2, fun u v hu => ?_⟩
          rw [hw.mem_child hh hm hu, toList]

/-- The children after an insertion. -/
structure Inserted (h p : Nat) (t : Int) (l : Level) (children children' : List (Fin 256 × Node)) :
    Prop where
  ne_nil : children' ≠ []
  wf : WfChildren h p children'
  mem : ∀ u v, (u, v) ∈ toLists children' ↔ u = t ∧ v = l ∨ u ≠ t ∧ (u, v) ∈ toLists children

theorem WfChildren.insertAtInner (hw : WfChildren h p children) (hh : h ≤ 7) (ht : IsI64 t)
    (hp : keyNat t / 256 ^ (h + 1) = p) :
    Inserted h p t l children (insertAtInner h children t l) := by
  induction h generalizing p children with
  | zero =>
      have hkey : keyNat t = p * 256 + keyByte t 7 := by
        have hdiv := div_keyByte ht hh hp
        rwa [pow_zero, Nat.div_one] at hdiv
      have hleaf : Wf 0 (p * 256 + keyByte t 7) (.leaf t l) := ⟨ht, hkey⟩
      refine ⟨SortedMap.insert_ne_nil _ _ _, hw.insert hleaf, fun u v => ?_⟩
      rw [Node.insertAtInner, hw.mem_insert hh hleaf, toList, List.mem_singleton, Prod.mk.injEq]
      split
      next hb =>
        -- The only tick of this byte is the new one.
        have hnot : ¬ (u ≠ t ∧ (u, v) ∈ toLists children) := by
          rintro ⟨hne, he⟩
          obtain ⟨c, hm, he⟩ := (hw.mem_iff hh).mp he
          obtain ⟨hu, hk⟩ := (hw.wf _ c hm).key he
          rw [hb, pow_zero, Nat.div_one] at hk
          exact hne (keyNat_injective hu ht (hk.trans hkey.symm))
        exact (or_iff_left hnot).symm
      next hb =>
        have hu : u ≠ t := fun hu => hb (hu ▸ rfl)
        simp [hu]
  | succ h ih =>
      have hdiv := div_keyByte ht hh hp
      obtain ⟨inside, hget, hin, hmem⟩ := hw.childrenAt (b := keyByte t (7 - (h + 1))) hh
      have hins := ih hin (by omega) hdiv
      have hchild : Wf (h + 1) (p * 256 + keyByte t (7 - (h + 1)))
          (.inner (Node.insertAtInner h inside t l)) := wf_inner.mpr ⟨hins.ne_nil, hins.wf⟩
      have heq : Node.insertAtInner (h + 1) children t l =
          SortedMap.insert (keyByte t (7 - (h + 1)))
            (.inner (Node.insertAtInner h inside t l)) children := by
        rw [Node.insertAtInner, hget]
      rw [heq]
      refine ⟨SortedMap.insert_ne_nil _ _ _, hw.insert hchild, fun u v => ?_⟩
      rw [hw.mem_insert hh hchild, toList]
      split
      next hb => rw [hins.mem, hmem u v hb]
      next hb =>
        have hu : u ≠ t := fun hu => hb (hu ▸ rfl)
        simp [hu]

/-! ## Removal -/

/-- A node after the removal of a tick, and whether it is empty. -/
structure Removed (h p : Nat) (t : Int) (node node' : Node) (empty : Bool) : Prop where
  only : empty = true → ∀ u v, (u, v) ∈ node.toList → u = t
  wf : empty = false → Wf h p node'
  mem : empty = false → ∀ u v, (u, v) ∈ node'.toList ↔ u ≠ t ∧ (u, v) ∈ node.toList

theorem WfChildren.erase {b : Fin 256} (hw : WfChildren h p children) :
    WfChildren h p (SortedMap.erase b children) :=
  ⟨SortedMap.sorted_erase hw.sorted, fun b' d hd => hw.wf b' d (SortedMap.mem_erase.mp hd).2⟩

theorem WfChildren.mem_erase {b : Fin 256} (hw : WfChildren h p children) (hh : h ≤ 7) :
    (t, l) ∈ toLists (SortedMap.erase b children) ↔
      keyByte t (7 - h) ≠ b ∧ (t, l) ∈ toLists children := by
  rw [hw.erase.mem_iff hh, hw.mem_iff hh]
  simp only [SortedMap.mem_erase, and_assoc, exists_and_left]

/-- A child that is emptied goes. -/
theorem Removed.gone {c c' : Node}
    (hc : Removed h (p * 256 + keyByte t (7 - h)) t c c' true) (hw : WfChildren h p children)
    (hh : h ≤ 7) (hm : (keyByte t (7 - h), c) ∈ children) :
    Removed (h + 1) p t (.inner children)
      (.inner (SortedMap.erase (keyByte t (7 - h)) children))
      (SortedMap.erase (keyByte t (7 - h)) children).isEmpty := by
  have hmem : ∀ u v, (u, v) ∈ toLists (SortedMap.erase (keyByte t (7 - h)) children) ↔
      u ≠ t ∧ (u, v) ∈ toLists children := by
    intro u v
    rw [hw.mem_erase hh]
    refine and_congr_left fun he => not_congr ⟨fun hb => ?_, fun hu => hu ▸ rfl⟩
    exact hc.only rfl u v ((hw.mem_child hh hm hb).mp he)
  refine ⟨fun hnil u v he => ?_, fun hne => wf_inner.mpr ⟨?_, hw.erase⟩, fun _ => hmem⟩
  · rw [List.isEmpty_iff] at hnil
    have hno := hmem u v
    rw [hnil, toLists] at hno
    by_contra hu
    exact List.not_mem_nil (hno.mpr ⟨hu, he⟩)
  · rintro hnil
    rw [hnil] at hne
    cases hne

/-- A child that keeps ticks stays. -/
theorem Removed.kept {c c' : Node}
    (hc : Removed h (p * 256 + keyByte t (7 - h)) t c c' false) (hw : WfChildren h p children)
    (hh : h ≤ 7) (hm : (keyByte t (7 - h), c) ∈ children) :
    Removed (h + 1) p t (.inner children)
      (.inner (SortedMap.insert (keyByte t (7 - h)) c' children))
      (SortedMap.insert (keyByte t (7 - h)) c' children).isEmpty := by
  have hne := SortedMap.insert_ne_nil (keyByte t (7 - h)) c' children
  refine ⟨fun hnil => absurd (List.isEmpty_iff.mp hnil) hne,
    fun _ => wf_inner.mpr ⟨hne, hw.insert (hc.wf rfl)⟩, fun _ u v => ?_⟩
  rw [toList, hw.mem_insert hh (hc.wf rfl), toList]
  split
  next hb => rw [hc.mem rfl, hw.mem_child hh hm hb]
  next hb =>
    have hu : u ≠ t := fun hu => hb (hu ▸ rfl)
    simp [hu]

/-- A removal takes out the tick, and nothing else. -/
theorem Wf.removeAt_eq (hw : Wf h p node) (hh : h ≤ 8) (he : (t, l) ∈ node.toList) :
    ∃ empty node', removeAt t h node = .removed l empty node' ∧
      Removed h p t node node' empty := by
  induction h generalizing p node with
  | zero =>
      cases node with
      | inner children => exact hw.elim
      | leaf key value =>
          rw [toList, List.mem_singleton] at he
          cases he
          refine ⟨true, _, by rw [removeAt, if_neg (not_not.mpr rfl)], ?_, nofun, nofun⟩
          intro _ u v hu
          rw [toList, List.mem_singleton] at hu
          cases hu
          rfl
  | succ h ih =>
      cases node with
      | leaf key value => exact hw.elim
      | inner children =>
          obtain ⟨-, hc⟩ := wf_inner.mp hw
          have hh7 : h ≤ 7 := by omega
          rw [toList, hc.mem_iff hh7] at he
          obtain ⟨c, hm, he⟩ := he
          obtain ⟨empty, c', hrem, hremoved⟩ := ih (hc.wf _ c hm) (by omega) he
          have hget := (SortedMap.get_eq_some hc.sorted).mpr hm
          cases empty with
          | true =>
              exact ⟨_, _, by rw [removeAt, hget]; simp only [hrem]; rfl, hremoved.gone hc hh7 hm⟩
          | false =>
              exact ⟨_, _, by rw [removeAt, hget]; simp only [hrem]; rfl, hremoved.kept hc hh7 hm⟩

/-- A tick that is not there is not removed. -/
theorem Wf.removeAt_missing (hw : Wf h p node) (hh : h ≤ 8) (he : ∀ l, (t, l) ∉ node.toList) :
    removeAt t h node = .missing := by
  induction h generalizing p node with
  | zero =>
      cases node with
      | inner children => exact hw.elim
      | leaf key value =>
          refine if_pos fun hk => he value ?_
          rw [toList, hk]
          exact List.mem_singleton_self _
  | succ h ih =>
      cases node with
      | leaf key value => exact hw.elim
      | inner children =>
          obtain ⟨-, hc⟩ := wf_inner.mp hw
          have hh7 : h ≤ 7 := by omega
          rw [removeAt]
          cases hget : SortedMap.get (keyByte t (7 - h)) children with
          | none => rfl
          | some c =>
              have hm := (SortedMap.get_eq_some hc.sorted).mp hget
              have hmiss := ih (hc.wf _ c hm) (by omega) fun l hl =>
                he l (by rw [toList]; exact (hc.mem_child hh7 hm rfl).mpr hl)
              simp only [hmiss]

/-! ## Extremes and walks -/

theorem toLists_ne_nil (hw : ∀ b c, (b, c) ∈ children → Wf h (p * 256 + b) c)
    (hne : children ≠ []) : toLists children ≠ [] := by
  cases children with
  | nil => exact absurd rfl hne
  | cons q children =>
      have hq := (hw q.1 q.2 (List.mem_cons_self ..)).toList_ne_nil
      rw [toLists]
      exact List.append_ne_nil_of_left_ne_nil hq _

/-- The smallest tick is the first. -/
theorem Wf.extreme_min (hw : Wf h p node) :
    extreme true node = node.toList.head?.map Prod.fst := by
  induction h generalizing p node with
  | zero =>
      cases node with
      | inner children => exact hw.elim
      | leaf key value => rfl
  | succ h ih =>
      cases node with
      | leaf key value => exact hw.elim
      | inner children =>
          cases children with
          | nil => exact absurd rfl hw.1
          | cons q children =>
              have hq := hw.2.2 q.1 q.2 (List.mem_cons_self ..)
              rw [extreme, if_pos rfl, extremeFirst, ih hq, toList, toLists,
                List.head?_append_of_ne_nil _ hq.toList_ne_nil]

/-- The largest tick is the last. -/
theorem Wf.extreme_max (hw : Wf h p node) :
    extreme false node = node.toList.getLast?.map Prod.fst := by
  induction h generalizing p node with
  | zero =>
      cases node with
      | inner children => exact hw.elim
      | leaf key value => rfl
  | succ h ih =>
      cases node with
      | leaf key value => exact hw.elim
      | inner children =>
          obtain ⟨hne, -, hc⟩ := hw
          rw [extreme, if_neg (by decide), toList]
          induction children with
          | nil => exact absurd rfl hne
          | cons q children ihc =>
              obtain ⟨b, c⟩ := q
              have hrest : ∀ b' c', (b', c') ∈ children → Wf h (p * 256 + b') c' :=
                fun b' c' hm => hc b' c' (List.mem_cons_of_mem _ hm)
              cases children with
              | nil =>
                  rw [extremeLast, ih (hc b c (List.mem_cons_self ..)), toLists, toLists,
                    List.append_nil]
              | cons r children =>
                  have hr : r :: children ≠ [] := List.cons_ne_nil r children
                  have hlast : (toLists ((b, c) :: r :: children)).getLast? =
                      (toLists (r :: children)).getLast? :=
                    List.getLast?_append_of_ne_nil _ (toLists_ne_nil hrest hr)
                  rw [hlast, ← ihc hr hrest]
                  rfl

/-- Add to a list up to a length. -/
def fillUp {α : Type} (n : Nat) (out l : List α) : List α := out ++ l.take (n - out.length)

theorem fillUp_full {α : Type} {n : Nat} {out : List α} (hn : n ≤ out.length) (l : List α) :
    fillUp n out l = out := by
  rw [fillUp, Nat.sub_eq_zero_of_le hn, List.take_zero, List.append_nil]

theorem fillUp_fillUp {α : Type} (n : Nat) (out l l' : List α) :
    fillUp n (fillUp n out l) l' = fillUp n out (l ++ l') := by
  simp only [fillUp, List.append_assoc, List.length_append, List.length_take, List.take_append]
  congr 3
  omega

/-- The direction of a walk. -/
def directed {α : Type} (ascending : Bool) (l : List α) : List α :=
  if ascending then l else l.reverse

/-- A tick and its total. -/
def totalOf (e : Int × Level) : Int × Int := (e.1, e.2.totalLot)

/-- A walk adds what is below the node, in its direction. -/
theorem Wf.walk_eq (hw : Wf h p node) (ascending : Bool) (n : Nat) (out : List (Int × Int)) :
    walk ascending n node out = fillUp n out ((directed ascending node.toList).map totalOf) := by
  induction h generalizing p node out with
  | zero =>
      cases node with
      | inner children => exact hw.elim
      | leaf key value =>
          have hone : (directed ascending (Node.leaf key value).toList).map totalOf =
              [(key, value.totalLot)] := by
            cases ascending <;> rfl
          rw [walk, hone]
          split
          next hn => rw [fillUp_full hn]
          next hn => rw [fillUp, List.take_of_length_le (by simp; omega)]
  | succ h ih =>
      cases node with
      | leaf key value => exact hw.elim
      | inner children =>
          obtain ⟨-, -, hc⟩ := hw
          rw [walk, toList]
          split
          next hn => rw [fillUp_full hn]
          next =>
            cases ascending with
            | true =>
                rw [if_pos rfl, directed, if_pos rfl]
                induction children generalizing out with
                | nil => simp [walkForward, toLists, fillUp]
                | cons q children ihc =>
                    have hq := ih (hc q.1 q.2 (List.mem_cons_self ..)) out
                    rw [directed, if_pos rfl] at hq
                    rw [walkForward, hq, toLists, List.map_append, ← fillUp_fillUp]
                    split
                    next hn => rw [fillUp_full hn]
                    next hn => exact ihc _ (fun b c hm => hc b c (List.mem_cons_of_mem _ hm)) hn
            | false =>
                rw [if_neg (by decide), directed, if_neg (by decide)]
                induction children with
                | nil => simp [walkBackward, toLists, fillUp]
                | cons q children ihc =>
                    have hrest := ihc fun b c hm => hc b c (List.mem_cons_of_mem _ hm)
                    rw [walkBackward, hrest, toLists, List.reverse_append, List.map_append,
                      ← fillUp_fillUp]
                    split
                    next hn => rw [fillUp_full hn]
                    next => exact ih (hc q.1 q.2 (List.mem_cons_self ..)) _

end Node

end MatchCoreHp
