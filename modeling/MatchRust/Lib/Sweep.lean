import Mathlib.Algebra.Order.Group.Defs
import Mathlib.Algebra.Order.Monoid.Unbundled.Basic
import Mathlib.Algebra.Order.Group.Unbundled.Basic
import Mathlib.Algebra.BigOperators.Group.List.Basic
import Mathlib.Algebra.Order.BigOperators.Group.List
import Mathlib.Algebra.Group.Hom.Defs
import Mathlib.Data.List.Forall2
import Mathlib.Order.Monotone.Defs
import Mathlib.Tactic.Abel

/-!
# Sweeping a queue of makers

A taker with an open quantity meets a queue of makers, best first.  `sweep`
consumes the queue from the front.  A maker the taker exhausts leaves the queue
and the sweep goes on with the rest of the taker.  A maker that is larger than
what is left of the taker stays at the front, reduced, and the sweep ends.  The
sweep also ends at the first maker the taker does not cross, and after a number
of fills that a cap may set.

Quantities are elements of a linearly ordered abelian group, so the same sweep
serves integer lots and decimal amounts.  Makers are of any type with an open
quantity and a reduction (`MakerOps`).

The lemmas say what a sweep fills (`sum_fills`, `fills_initial`, `fill_spec`),
what it leaves in the queue (`book_keys`, `mem_book`, `book_of_left`), when it
exhausts the taker (`left_eq_max`), and that it commutes with maps of the
makers that respect the quantities (`sweep_map`) and respects relations that do
(`sweep_rel`).
-/

namespace PriceTime

/-- What a sweep reads and changes of a maker. -/
structure MakerOps (M Q : Type*) [Sub Q] where
  /-- The open quantity. -/
  openOf : M → Q
  /-- The maker after a partial fill. -/
  reduce : Q → M → M
  /-- A partial fill is taken off the open quantity. -/
  openOf_reduce : ∀ q m, openOf (reduce q m) = openOf m - q

/-- One fill of a sweep. -/
structure Fill (M Q : Type*) where
  /-- The maker, as it was before the fill. -/
  maker : M
  /-- The quantity that changes hands. -/
  qty : Q
  /-- What is left of the taker after the fill. -/
  takerLeft : Q
  /-- What is left of the maker after the fill. -/
  makerLeft : Q

/-- The result of a sweep. -/
@[ext] structure Sweep (M Q : Type*) where
  /-- The fills, in order. -/
  fills : List (Fill M Q)
  /-- The queue that remains. -/
  book : List M
  /-- What is left of the taker. -/
  left : Q

/-- A fill in front of a sweep. -/
def Sweep.cons {M Q : Type*} (f : Fill M Q) (r : Sweep M Q) : Sweep M Q :=
  ⟨f :: r.fills, r.book, r.left⟩

variable {M Q : Type*} [AddCommGroup Q] [LinearOrder Q]

/-- Sweep a queue with a taker of open quantity `q`. -/
def sweep (S : MakerOps M Q) (crosses : M → Bool) : Option Nat → Q → List M → Sweep M Q
  | _, q, [] => ⟨[], [], q⟩
  | cap, q, m :: ms =>
      if cap = some 0 ∨ crosses m = false then ⟨[], m :: ms, q⟩
      else if S.openOf m < q then
        .cons ⟨m, S.openOf m, q - S.openOf m, 0⟩
          (sweep S crosses (cap.map Nat.pred) (q - S.openOf m) ms)
      else if q < S.openOf m then ⟨[⟨m, q, 0, S.openOf m - q⟩], S.reduce q m :: ms, 0⟩
      else ⟨[⟨m, q, 0, 0⟩], ms, 0⟩

section Equations

variable (S : MakerOps M Q) {crosses : M → Bool} {cap : Option Nat} {q : Q} {m : M} {ms : List M}

@[simp] theorem sweep_nil : sweep S crosses cap q [] = ⟨[], [], q⟩ := by
  rw [sweep]

theorem sweep_stop (h : cap = some 0 ∨ crosses m = false) :
    sweep S crosses cap q (m :: ms) = ⟨[], m :: ms, q⟩ := by
  rw [sweep, if_pos h]

/-- A sweep whose cap is used up does nothing. -/
theorem sweep_capped (q : Q) (ms : List M) : sweep S crosses (some 0) q ms = ⟨[], ms, q⟩ := by
  cases ms with
  | nil => exact sweep_nil S
  | cons m ms => exact sweep_stop S (Or.inl rfl)

/-- A taker that does not cross the front maker takes nothing. -/
theorem sweep_blocked (h : ∀ m ∈ ms.head?, crosses m = false) :
    sweep S crosses cap q ms = ⟨[], ms, q⟩ := by
  cases ms with
  | nil => exact sweep_nil S
  | cons m ms => exact sweep_stop S (Or.inr (h m rfl))

theorem sweep_more (hcap : cap ≠ some 0) (hc : crosses m = true) (h : S.openOf m < q) :
    sweep S crosses cap q (m :: ms) =
      .cons ⟨m, S.openOf m, q - S.openOf m, 0⟩
        (sweep S crosses (cap.map Nat.pred) (q - S.openOf m) ms) := by
  rw [sweep, if_neg (by simp [hcap, hc]), if_pos h]

theorem sweep_part (hcap : cap ≠ some 0) (hc : crosses m = true) (h : q < S.openOf m) :
    sweep S crosses cap q (m :: ms) =
      ⟨[⟨m, q, 0, S.openOf m - q⟩], S.reduce q m :: ms, 0⟩ := by
  rw [sweep, if_neg (by simp [hcap, hc]), if_neg (not_lt_of_gt h), if_pos h]

theorem sweep_exact (hcap : cap ≠ some 0) (hc : crosses m = true) (h : S.openOf m = q) :
    sweep S crosses cap q (m :: ms) = ⟨[⟨m, q, 0, 0⟩], ms, 0⟩ := by
  rw [sweep, if_neg (by simp [hcap, hc]), if_neg (by simp [h]), if_neg (by simp [h])]

end Equations

section Fills

variable (S : MakerOps M Q) (crosses : M → Bool)

/-- A sweep conserves the quantity of the taker. -/
theorem sum_fills (cap : Option Nat) (q : Q) (ms : List M) :
    ((sweep S crosses cap q ms).fills.map Fill.qty).sum + (sweep S crosses cap q ms).left = q := by
  fun_induction sweep S crosses cap q ms with
  | case1 => simp
  | case2 => simp
  | case3 cap q m ms _ _ ih =>
      simp only [Sweep.cons, List.map_cons, List.sum_cons]
      rw [add_assoc, ih, add_sub_cancel]
  | case4 => simp
  | case5 => simp

/-- The makers of the fills are the front of the queue, in its order. -/
theorem fills_initial (cap : Option Nat) (q : Q) (ms : List M) :
    (sweep S crosses cap q ms).fills.map Fill.maker <+: ms := by
  fun_induction sweep S crosses cap q ms with
  | case1 => simp
  | case2 => simp
  | case3 cap q m ms _ _ ih => exact (List.prefix_cons_inj m).mpr ih
  | case4 => simp
  | case5 => simp

/-- A cap bounds the number of fills. -/
theorem fills_length_le_cap (cap : Option Nat) (q : Q) (ms : List M) :
    ∀ k, cap = some k → (sweep S crosses cap q ms).fills.length ≤ k := by
  fun_induction sweep S crosses cap q ms with
  | case1 => simp
  | case2 => simp
  | case3 cap q m ms hgo _ ih =>
      intro k hk
      subst hk
      have hpos : k ≠ 0 := fun h => hgo (by simp [h])
      have ih' := ih k.pred (by simp)
      simp only [Sweep.cons, List.length_cons]
      rw [Nat.pred_eq_sub_one] at ih'
      omega
  | case4 cap q m ms hgo =>
      intro k hk
      have hpos : k ≠ 0 := fun h => hgo (by simp [hk, h])
      simp only [List.length_singleton]
      omega
  | case5 cap q m ms hgo =>
      intro k hk
      have hpos : k ≠ 0 := fun h => hgo (by simp [hk, h])
      simp only [List.length_singleton]
      omega

/-- Every maker but possibly the last is filled completely. -/
theorem makerLeft_dropLast (cap : Option Nat) (q : Q) (ms : List M) :
    ∀ f ∈ (sweep S crosses cap q ms).fills.dropLast, f.makerLeft = 0 := by
  fun_induction sweep S crosses cap q ms with
  | case1 => simp
  | case2 => simp
  | case3 cap q m ms _ _ ih =>
      intro f hf
      simp only [Sweep.cons] at hf
      cases hr : (sweep S crosses (cap.map Nat.pred) (q - S.openOf m) ms).fills with
      | nil => simp [hr] at hf
      | cons g gs =>
          rw [hr, List.dropLast_cons_cons, List.mem_cons] at hf
          cases hf with
          | inl h => rw [h]
          | inr h => exact ih f (by rw [hr]; exact h)
  | case4 => simp
  | case5 => simp

/-- The open quantity of the makers of a queue that carry the name `i`. -/
def openAt {ι : Type*} [DecidableEq ι] (name : M → ι) (i : ι) (ms : List M) : Q :=
  ((ms.filter fun m => name m = i).map S.openOf).sum

/-- The quantity of the fills whose maker carries the name `i`. -/
def filledAt {ι : Type*} [DecidableEq ι] (name : M → ι) (i : ι) (fills : List (Fill M Q)) : Q :=
  ((fills.filter fun f => name f.maker = i).map Fill.qty).sum

/-- A maker's open quantity drops by what the fills that name it take. -/
theorem openAt_add_filledAt {ι : Type*} [DecidableEq ι] (name : M → ι)
    (hname : ∀ x m, name (S.reduce x m) = name m) (i : ι) (cap : Option Nat) (q : Q)
    (ms : List M) :
    openAt S name i (sweep S crosses cap q ms).book +
      filledAt name i (sweep S crosses cap q ms).fills = openAt S name i ms := by
  fun_induction sweep S crosses cap q ms with
  | case1 => simp [openAt, filledAt]
  | case2 => simp [openAt, filledAt]
  | case3 cap q m ms _ _ ih =>
      simp only [Sweep.cons, openAt, filledAt, List.filter_cons] at ih ⊢
      by_cases hi : name m = i
      · simp only [hi, decide_true, if_true, List.map_cons, List.sum_cons]
        rw [← ih]
        abel
      · simp only [hi, decide_false, Bool.false_eq_true, if_false]
        exact ih
  | case4 cap q m ms _ _ _ =>
      simp only [openAt, filledAt, List.filter_cons, hname]
      by_cases hi : name m = i
      · simp only [hi, decide_true, if_true, List.map_cons, List.sum_cons, S.openOf_reduce,
          List.filter_nil, List.map_nil, List.sum_nil]
        abel
      · simp [hi]
  | case5 cap q m ms _ h1 h2 =>
      have hq : S.openOf m = q := le_antisymm (not_lt.mp h2) (not_lt.mp h1)
      simp only [openAt, filledAt, List.filter_cons]
      by_cases hi : name m = i
      · simp [hi, hq, add_comm]
      · simp [hi]

end Fills

section Book

variable (S : MakerOps M Q) (crosses : M → Bool)

omit [AddCommGroup Q] [LinearOrder Q] in
theorem crosses_of_go {cap : Option Nat} {m : M} (h : ¬ (cap = some 0 ∨ crosses m = false)) :
    crosses m = true := by
  by_contra hc
  exact h (Or.inr (Bool.eq_false_iff.mpr hc))

omit [AddCommGroup Q] [LinearOrder Q] in
theorem cap_pos_of_go {cap : Option Nat} {m : M} (h : ¬ (cap = some 0 ∨ crosses m = false)) :
    ∀ k, cap = some k → 0 < k := by
  rintro k rfl
  exact Nat.pos_of_ne_zero fun h0 => h (Or.inl (congrArg some h0))

/-- The fills that take all of their maker. -/
def filled (fills : List (Fill M Q)) : List (Fill M Q) := fills.filter fun f => f.makerLeft = 0

/-- Whatever a partial fill keeps of a maker, the makers a sweep fills and the
queue it leaves are the queue before it. -/
theorem filled_append_book {κ : Type*} (key : M → κ) (hkey : ∀ x m, key (S.reduce x m) = key m)
    (cap : Option Nat) (q : Q) (ms : List M) :
    (filled (sweep S crosses cap q ms).fills).map (fun f => key f.maker) ++
      (sweep S crosses cap q ms).book.map key = ms.map key := by
  fun_induction sweep S crosses cap q ms with
  | case1 => rfl
  | case2 => rfl
  | case3 cap q m ms _ _ ih =>
      rw [List.map_cons, ← ih]
      simp [Sweep.cons, filled]
  | case4 cap q m ms _ _ h => simp [filled, sub_eq_zero, h.ne', hkey]
  | case5 => simp [filled]

/-- What a sweep leaves is the back of the queue. -/
theorem book_keys {κ : Type*} (key : M → κ) (hkey : ∀ x m, key (S.reduce x m) = key m)
    (cap : Option Nat) (q : Q) (ms : List M) :
    (sweep S crosses cap q ms).book.map key <:+ ms.map key :=
  ⟨_, filled_append_book S crosses key hkey cap q ms⟩

/-- A taker that is left over used up its cap or met a maker it does not cross,
and then no maker was partly filled. -/
theorem book_of_left (cap : Option Nat) (q : Q) (ms : List M) :
    0 < (sweep S crosses cap q ms).left →
      (sweep S crosses cap q ms).book = ms.drop (sweep S crosses cap q ms).fills.length ∧
      (cap = some (sweep S crosses cap q ms).fills.length ∨
        ∀ m ∈ (sweep S crosses cap q ms).book.head?, crosses m = false) := by
  fun_induction sweep S crosses cap q ms with
  | case1 => simp
  | case2 cap q m ms h =>
      intro _
      refine ⟨rfl, h.imp (fun h => h) fun h n hn => ?_⟩
      rw [← Option.some.inj hn]
      exact h
  | case3 cap q m ms hgo h ih =>
      intro hl
      obtain ⟨hb, hc⟩ := ih hl
      refine ⟨hb, hc.imp (fun hk => ?_) fun h => h⟩
      cases cap with
      | none => cases hk
      | some k =>
          have hk0 : k ≠ 0 := fun h0 => hgo (by simp [h0])
          have hk' := Option.some.inj hk
          simp only [Sweep.cons, List.length_cons, Option.some.injEq]
          rw [Nat.pred_eq_sub_one] at hk'
          simp only [Option.map_some, Nat.pred_eq_sub_one] at hk' ⊢
          omega
  | case4 => exact fun h => absurd h (lt_irrefl _)
  | case5 => exact fun h => absurd h (lt_irrefl _)

variable [IsOrderedAddMonoid Q]

/-- A sweep leaves nothing negative. -/
theorem left_nonneg (cap : Option Nat) (q : Q) (ms : List M) (hq : 0 ≤ q) :
    0 ≤ (sweep S crosses cap q ms).left := by
  fun_induction sweep S crosses cap q ms with
  | case1 => exact hq
  | case2 => exact hq
  | case3 cap q m ms _ h ih => exact ih (sub_nonneg.mpr h.le)
  | case4 => exact le_rfl
  | case5 => exact le_rfl

/-- A sweep leaves no more than there was. -/
theorem left_le (cap : Option Nat) (q : Q) (ms : List M) (hq : 0 ≤ q)
    (hpos : ∀ m ∈ ms, 0 < S.openOf m) : (sweep S crosses cap q ms).left ≤ q := by
  fun_induction sweep S crosses cap q ms with
  | case1 => exact le_rfl
  | case2 => exact le_rfl
  | case3 cap q m ms _ h ih =>
      have hm := hpos m (List.mem_cons_self ..)
      exact (ih (sub_nonneg.mpr h.le) fun n hn => hpos n (List.mem_cons_of_mem _ hn)).trans
        (sub_le_self q hm.le)
  | case4 => exact hq
  | case5 => exact hq

/-- A maker of the queue after a sweep is an old one, or the maker of a fill
that took a part of it. -/
theorem mem_book (cap : Option Nat) (q : Q) (ms : List M) (hq : 0 < q) :
    ∀ m ∈ (sweep S crosses cap q ms).book,
      m ∈ ms ∨ ∃ f ∈ (sweep S crosses cap q ms).fills, f.maker ∈ ms ∧ 0 < f.qty ∧
        f.qty < S.openOf f.maker ∧ m = S.reduce f.qty f.maker := by
  fun_induction sweep S crosses cap q ms with
  | case1 => simp
  | case2 => exact fun _ hm => Or.inl hm
  | case3 cap q m ms _ h ih =>
      intro n hn
      rcases ih (sub_pos.mpr h) n hn with hmem | ⟨f, hf, hmem, hx⟩
      · exact Or.inl (List.mem_cons_of_mem _ hmem)
      · exact Or.inr ⟨f, List.mem_cons_of_mem _ hf, List.mem_cons_of_mem _ hmem, hx⟩
  | case4 cap q m ms _ _ h =>
      intro n hn
      cases List.mem_cons.mp hn with
      | inl he => exact Or.inr ⟨_, List.mem_singleton_self _, List.mem_cons_self .., hq, h, he⟩
      | inr hmem => exact Or.inl (List.mem_cons_of_mem _ hmem)
  | case5 cap q m ms _ _ _ => exact fun n hn => Or.inl (List.mem_cons_of_mem _ hn)

/-- What a fill says of its maker. -/
theorem fill_spec (cap : Option Nat) (q : Q) (ms : List M) (hq : 0 < q)
    (hpos : ∀ m ∈ ms, 0 < S.openOf m) :
    ∀ f ∈ (sweep S crosses cap q ms).fills,
      crosses f.maker = true ∧ 0 < f.qty ∧ f.qty ≤ S.openOf f.maker ∧
        f.makerLeft = S.openOf f.maker - f.qty := by
  fun_induction sweep S crosses cap q ms with
  | case1 => simp
  | case2 => simp
  | case3 cap q m ms hgo h ih =>
      have hc := crosses_of_go crosses hgo
      intro f hf
      cases List.mem_cons.mp hf with
      | inl he => rw [he]; exact ⟨hc, hpos m (List.mem_cons_self ..), le_rfl, by simp⟩
      | inr hf' =>
          exact ih (sub_pos.mpr h) (fun n hn => hpos n (List.mem_cons_of_mem _ hn)) f hf'
  | case4 cap q m ms hgo _ h =>
      have hc := crosses_of_go crosses hgo
      intro f hf
      rw [List.mem_singleton.mp hf]
      exact ⟨hc, hq, h.le, rfl⟩
  | case5 cap q m ms hgo h1 h2 =>
      have hc := crosses_of_go crosses hgo
      have hm : S.openOf m = q := le_antisymm (not_lt.mp h2) (not_lt.mp h1)
      intro f hf
      rw [List.mem_singleton.mp hf]
      exact ⟨hc, hq, hm.ge, by simp [hm]⟩

theorem sum_openOf_nonneg {ms : List M} (hpos : ∀ m ∈ ms, 0 < S.openOf m) :
    0 ≤ (ms.map S.openOf).sum := by
  refine List.sum_nonneg fun x hx => ?_
  obtain ⟨m, hm, rfl⟩ := List.mem_map.mp hx
  exact (hpos m hm).le

theorem sum_openOf_pos {ms : List M} (hne : ms ≠ []) (hpos : ∀ m ∈ ms, 0 < S.openOf m) :
    0 < (ms.map S.openOf).sum := by
  refine List.sum_pos _ (fun x hx => ?_) (by simpa using hne)
  obtain ⟨m, hm, rfl⟩ := List.mem_map.mp hx
  exact hpos m hm

/-- The open quantity of a queue up to one of its makers exceeds that of the
first, unless that is the maker. -/
theorem openOf_lt_sum {m n : M} {pre post : List M}
    (hpos : ∀ x ∈ m :: (pre ++ n :: post), 0 < S.openOf x) :
    S.openOf m < ((m :: pre ++ [n]).map S.openOf).sum := by
  have hrest : 0 < ((pre ++ [n]).map S.openOf).sum := by
    refine sum_openOf_pos S (by simp) fun x hx => hpos x (List.mem_cons_of_mem _ ?_)
    rcases List.mem_append.mp hx with hx | hx
    · exact List.mem_append_left _ hx
    · rw [List.mem_singleton.mp hx]
      exact List.mem_append_right _ (List.mem_cons_self ..)
  rw [List.cons_append, List.map_cons, List.sum_cons]
  exact lt_add_of_pos_right _ hrest

omit [AddCommGroup Q] [LinearOrder Q] [IsOrderedAddMonoid Q] in
/-- Where the makers the taker crosses come first, it crosses the first maker if it
crosses any. -/
theorem crosses_front {n m : M} {ms pre post : List M}
    (hfront : (n :: ms).Pairwise fun a b => crosses b = true → crosses a = true)
    (h : n :: ms = pre ++ m :: post) (hm : crosses m = true) : crosses n = true := by
  cases pre with
  | nil =>
      rw [(List.cons.inj h).1]
      exact hm
  | cons p pre =>
      have hmem : m ∈ ms := by
        rw [(List.cons.inj h).2]
        simp
      exact (List.pairwise_cons.mp hfront).1 m hmem hm

/-- Where the makers the taker crosses come first, a maker is filled if the
taker crosses it, the queue up to it is no larger than the taker, and the cap
reaches it. -/
theorem lt_length_filled_iff (cap : Option Nat) (q : Q) (ms : List M) (hq : 0 < q)
    (hpos : ∀ m ∈ ms, 0 < S.openOf m)
    (hfront : ms.Pairwise fun a b => crosses b = true → crosses a = true) :
    ∀ pre m post, ms = pre ++ m :: post →
      (pre.length < (filled (sweep S crosses cap q ms).fills).length ↔
        crosses m = true ∧ ((pre ++ [m]).map S.openOf).sum ≤ q ∧
          ∀ k, cap = some k → pre.length < k) := by
  fun_induction sweep S crosses cap q ms with
  | case1 => exact fun pre m post h => absurd h (by simp)
  | case2 cap q n ms hstop =>
      intro pre m post h
      refine iff_of_false (by simp [filled]) fun hr => ?_
      cases hstop with
      | inl hcap => exact absurd (hr.2.2 0 hcap) (Nat.not_lt_zero _)
      | inr hc =>
          have hn := crosses_front crosses hfront h hr.1
          rw [hc] at hn
          cases hn
  | case3 cap q n ms hgo hlt ih =>
      intro pre m post h
      have hc := crosses_of_go crosses hgo
      cases pre with
      | nil =>
          obtain ⟨rfl, rfl⟩ := List.cons.inj h
          exact iff_of_true (by simp [Sweep.cons, filled])
            ⟨hc, by simpa using hlt.le, cap_pos_of_go crosses hgo⟩
      | cons p pre =>
          obtain ⟨rfl, hms⟩ := List.cons.inj h
          have ih' := ih (sub_pos.mpr hlt) (fun x hx => hpos x (List.mem_cons_of_mem _ hx))
            (List.pairwise_cons.mp hfront).2 pre m post hms
          have hlen : (n :: pre).length < (filled (Sweep.cons ⟨n, S.openOf n, q - S.openOf n, 0⟩
              (sweep S crosses (cap.map Nat.pred) (q - S.openOf n) ms)).fills).length ↔
              pre.length < (filled
                (sweep S crosses (cap.map Nat.pred) (q - S.openOf n) ms).fills).length := by
            simp [Sweep.cons, filled]
          rw [hlen, ih', List.cons_append, List.map_cons, List.sum_cons, le_sub_iff_add_le',
            List.length_cons]
          refine and_congr_right fun _ => and_congr_right fun _ => ?_
          cases cap with
          | none => simp
          | some k =>
              simp only [Option.map_some, Option.some.injEq, forall_eq', Nat.pred_eq_sub_one]
              omega
  | case4 cap q n ms hgo _ hlt =>
      intro pre m post h
      refine iff_of_false (by simp [filled, sub_eq_zero, hlt.ne']) fun hr => ?_
      cases pre with
      | nil =>
          obtain ⟨rfl, rfl⟩ := List.cons.inj h
          exact absurd hr.2.1 (by simpa using hlt)
      | cons p pre =>
          obtain ⟨rfl, hms⟩ := List.cons.inj h
          rw [hms] at hpos
          exact absurd (hlt.trans (openOf_lt_sum S hpos)) (not_lt.mpr hr.2.1)
  | case5 cap q n ms hgo h1 h2 =>
      intro pre m post h
      have heq : S.openOf n = q := le_antisymm (not_lt.mp h2) (not_lt.mp h1)
      have hc := crosses_of_go crosses hgo
      cases pre with
      | nil =>
          obtain ⟨rfl, rfl⟩ := List.cons.inj h
          exact iff_of_true (by simp [filled])
            ⟨hc, by simpa using heq.le, cap_pos_of_go crosses hgo⟩
      | cons p pre =>
          obtain ⟨rfl, hms⟩ := List.cons.inj h
          rw [hms] at hpos
          refine iff_of_false (by simp [filled]) fun hr => ?_
          exact absurd (heq ▸ openOf_lt_sum S hpos) (not_lt.mpr hr.2.1)

/-- Which makers a sweep fills, told from the queue before it. -/
theorem exists_filled_iff {κ : Type*} (key : M → κ) (hkey : ∀ x m, key (S.reduce x m) = key m)
    (cap : Option Nat) (q : Q) (ms : List M) (hq : 0 < q) (hpos : ∀ m ∈ ms, 0 < S.openOf m)
    (hfront : ms.Pairwise fun a b => crosses b = true → crosses a = true) (k : κ) :
    (∃ f ∈ filled (sweep S crosses cap q ms).fills, key f.maker = k) ↔
      ∃ pre m post, ms = pre ++ m :: post ∧ key m = k ∧ crosses m = true ∧
        ((pre ++ [m]).map S.openOf).sum ≤ q ∧ ∀ n, cap = some n → pre.length < n := by
  have hkeys := filled_append_book S crosses key hkey cap q ms
  have hiff := lt_length_filled_iff S crosses cap q ms hq hpos hfront
  constructor
  · rintro ⟨f, hf, hk⟩
    obtain ⟨fs, gs, hfs⟩ := List.append_of_mem hf
    rw [hfs, List.map_append, List.map_cons, List.append_assoc, List.cons_append] at hkeys
    obtain ⟨pre, rest, rfl, hpre, hrest⟩ := List.map_eq_append_iff.mp hkeys.symm
    obtain ⟨m, post, rfl, hm, -⟩ := List.map_eq_cons_iff.mp hrest
    refine ⟨pre, m, post, rfl, hm.trans hk, (hiff pre m post rfl).mp ?_⟩
    have hlen := congrArg List.length hpre
    rw [List.length_map, List.length_map] at hlen
    rw [hlen, hfs, List.length_append, List.length_cons]
    omega
  · rintro ⟨pre, m, post, rfl, hk, hm⟩
    have hlt := (hiff pre m post rfl).mpr hm
    rw [List.map_append, List.map_cons] at hkeys
    have hget : ((filled (sweep S crosses cap q (pre ++ m :: post)).fills).map
        fun f => key f.maker)[pre.length]? = some (key m) := by
      rw [← List.getElem?_append_left (by rwa [List.length_map]), hkeys,
        List.getElem?_append_right (by simp)]
      simp
    obtain ⟨f, hf, hfk⟩ := List.mem_map.mp (List.mem_of_getElem? hget)
    exact ⟨f, hf, hfk.trans hk⟩

/-- The open quantity of the makers of a queue that a taker crosses. -/
def liquidity (ms : List M) : Q := ((ms.filter crosses).map S.openOf).sum

theorem liquidity_nonneg {ms : List M} (hpos : ∀ m ∈ ms, 0 < S.openOf m) :
    0 ≤ liquidity S crosses ms :=
  sum_openOf_nonneg S fun m hm => hpos m (List.mem_of_mem_filter hm)

omit [LinearOrder Q] [IsOrderedAddMonoid Q] in
theorem liquidity_cons {m : M} (ms : List M) (hc : crosses m = true) :
    liquidity S crosses (m :: ms) = S.openOf m + liquidity S crosses ms := by
  simp [liquidity, hc]

/-- Without a cap, and where the makers the taker crosses come first, what is
left of the taker is what they cannot fill. -/
theorem left_eq_max (cap : Option Nat) (q : Q) (ms : List M) (hq : 0 < q)
    (hcap : cap = none) (hpos : ∀ m ∈ ms, 0 < S.openOf m)
    (hfront : ms.Pairwise fun a b => crosses b = true → crosses a = true) :
    (sweep S crosses cap q ms).left = max (q - liquidity S crosses ms) 0 := by
  fun_induction sweep S crosses cap q ms with
  | case1 => simp [liquidity, hq.le]
  | case2 cap q m ms h =>
      have hm : crosses m = false := h.resolve_left (by simp [hcap])
      have hnone : (m :: ms).filter crosses = [] := by
        rw [List.filter_eq_nil_iff]
        intro n hn hc
        cases List.mem_cons.mp hn with
        | inl he => rw [he, hm] at hc; cases hc
        | inr hn' =>
            have := (List.pairwise_cons.mp hfront).1 n hn' hc
            rw [hm] at this
            cases this
      simp [liquidity, hnone, hq.le]
  | case3 cap q m ms hgo h ih =>
      have hc := crosses_of_go crosses hgo
      have ih' := ih (sub_pos.mpr h) (by simp [hcap])
        (fun n hn => hpos n (List.mem_cons_of_mem _ hn)) (List.pairwise_cons.mp hfront).2
      rw [liquidity_cons S crosses ms hc, ← sub_sub]
      exact ih'
  | case4 cap q m ms hgo _ h =>
      have hc := crosses_of_go crosses hgo
      have hrest := liquidity_nonneg S crosses fun n hn => hpos n (List.mem_cons_of_mem _ hn)
      rw [liquidity_cons S crosses ms hc]
      exact (max_eq_right (sub_nonpos.mpr (h.le.trans (le_add_of_nonneg_right hrest)))).symm
  | case5 cap q m ms hgo h1 h2 =>
      have hc := crosses_of_go crosses hgo
      have hrest := liquidity_nonneg S crosses fun n hn => hpos n (List.mem_cons_of_mem _ hn)
      rw [liquidity_cons S crosses ms hc]
      exact (max_eq_right
        (sub_nonpos.mpr ((not_lt.mp h1).trans (le_add_of_nonneg_right hrest)))).symm

end Book

section Exact

variable (S : MakerOps M Q) (crosses : M → Bool)

/-- A fill exhausts the maker or the taker. -/
theorem makerLeft_or_takerLeft (cap : Option Nat) (q : Q) (ms : List M) :
    ∀ f ∈ (sweep S crosses cap q ms).fills, f.makerLeft = 0 ∨ f.takerLeft = 0 := by
  fun_induction sweep S crosses cap q ms with
  | case1 => simp
  | case2 => simp
  | case3 cap q m ms _ _ ih =>
      intro f hf
      rcases List.mem_cons.mp hf with rfl | hf
      · exact .inl rfl
      · exact ih f hf
  | case4 => simp
  | case5 => simp

/-- A taker that a fill exhausts has nothing left. -/
theorem left_of_takerLeft (cap : Option Nat) (q : Q) (ms : List M) :
    ∀ f ∈ (sweep S crosses cap q ms).fills, f.takerLeft = 0 →
      (sweep S crosses cap q ms).left = 0 := by
  fun_induction sweep S crosses cap q ms with
  | case1 => simp
  | case2 => simp
  | case3 cap q m ms _ hlt ih =>
      intro f hf h0
      rcases List.mem_cons.mp hf with rfl | hf
      · exact absurd (sub_eq_zero.mp h0) hlt.ne'
      · exact ih f hf h0
  | case4 => simp
  | case5 => simp

variable [IsOrderedAddMonoid Q]

/-- A fill exhausts the maker and the taker exactly if the makers up to it add up to the
taker. -/
theorem fills_exact_iff (cap : Option Nat) (q : Q) (ms : List M) (hcap : cap = none) (hq : 0 < q)
    (hpos : ∀ m ∈ ms, 0 < S.openOf m) :
    ∀ pre, ((sweep S crosses cap q ms).fills.map Fill.maker = pre ∧
        ∃ f ∈ (sweep S crosses cap q ms).fills, f.takerLeft = 0 ∧ f.makerLeft = 0) ↔
      pre <+: ms ∧ (∀ m ∈ pre, crosses m = true) ∧ (pre.map S.openOf).sum = q := by
  fun_induction sweep S crosses cap q ms with
  | case1 =>
      intro pre
      refine iff_of_false (by simp) fun h => ?_
      rw [List.prefix_nil.mp h.1] at h
      exact hq.ne h.2.2
  | case2 cap q m ms hstop =>
      intro pre
      refine iff_of_false (by simp) ?_
      rintro ⟨hpre, hcross, hsum⟩
      cases pre with
      | nil => exact hq.ne hsum
      | cons p pre =>
          obtain ⟨rfl, -⟩ := List.cons_prefix_cons.mp hpre
          have hm := hstop.resolve_left (by simp [hcap])
          exact absurd ((hcross p List.mem_cons_self).symm.trans hm) (by decide)
  | case3 cap q m ms hgo hlt ih =>
      have hc := crosses_of_go crosses hgo
      have ih' := ih (by simp [hcap]) (sub_pos.mpr hlt)
        (fun n hn => hpos n (List.mem_cons_of_mem _ hn))
      intro pre
      cases pre with
      | nil => exact iff_of_false (by simp [Sweep.cons]) fun h => hq.ne h.2.2
      | cons p pre =>
          have hsub : (q - S.openOf m = 0) = False := eq_false (sub_pos.mpr hlt).ne'
          simp only [Sweep.cons, List.map_cons, List.cons.injEq, List.mem_cons, exists_eq_or_imp,
            hsub, false_and, false_or, List.cons_prefix_cons, forall_eq_or_imp, List.sum_cons]
          constructor
          · rintro ⟨⟨rfl, hmakers⟩, hexact⟩
            obtain ⟨hpre, hcross, hsum⟩ := (ih' pre).mp ⟨hmakers, hexact⟩
            exact ⟨⟨rfl, hpre⟩, ⟨hc, hcross⟩, by rw [hsum, add_sub_cancel]⟩
          · rintro ⟨⟨rfl, hpre⟩, ⟨-, hcross⟩, hsum⟩
            obtain ⟨hmakers, hexact⟩ := (ih' pre).mpr ⟨hpre, hcross, eq_sub_of_add_eq' hsum⟩
            exact ⟨⟨rfl, hmakers⟩, hexact⟩
  | case4 cap q m ms _ _ hlt =>
      intro pre
      refine iff_of_false (by simp [sub_eq_zero, hlt.ne']) ?_
      rintro ⟨hpre, -, hsum⟩
      cases pre with
      | nil => exact hq.ne hsum
      | cons p pre =>
          obtain ⟨rfl, hrestPre⟩ := List.cons_prefix_cons.mp hpre
          have hrest : 0 ≤ (pre.map S.openOf).sum := sum_openOf_nonneg S fun n hn =>
            hpos n (List.mem_cons_of_mem _ (hrestPre.subset hn))
          rw [List.map_cons, List.sum_cons] at hsum
          exact absurd (hlt.trans_le (le_add_of_nonneg_right hrest)) (hsum ▸ lt_irrefl _)
  | case5 cap q m ms hgo h1 h2 =>
      have hc := crosses_of_go crosses hgo
      have hm : S.openOf m = q := le_antisymm (not_lt.mp h2) (not_lt.mp h1)
      intro pre
      constructor
      · rintro ⟨rfl, -⟩
        exact ⟨⟨ms, rfl⟩, by simpa using hc, by simpa using hm⟩
      · rintro ⟨hpre, -, hsum⟩
        cases pre with
        | nil => exact absurd hsum hq.ne
        | cons p pre =>
            obtain ⟨rfl, hrestPre⟩ := List.cons_prefix_cons.mp hpre
            rw [List.map_cons, List.sum_cons, hm, add_eq_left] at hsum
            cases pre with
            | nil => simp
            | cons r pre =>
                have hrest : 0 < ((r :: pre).map S.openOf).sum :=
                  sum_openOf_pos S (List.cons_ne_nil _ _) fun n hn =>
                    hpos n (List.mem_cons_of_mem _ (hrestPre.subset hn))
                exact absurd hsum hrest.ne'

end Exact

section Whole

variable (S : MakerOps M Q) {crosses : M → Bool}

/-- Fills of makers one after the other, each of what it has or of what the taker has left. -/
def takes : Q → List M → List (Fill M Q)
  | _, [] => []
  | q, m :: ms =>
      let x := min q (S.openOf m)
      ⟨m, x, q - x, S.openOf m - x⟩ :: takes (q - x) ms

/-- How many makers a taker needs, or all of them if they are not enough. -/
def needed : Q → List M → Nat
  | _, [] => 0
  | q, m :: ms => if S.openOf m < q then needed (q - S.openOf m) ms + 1 else 1

theorem length_takes (q : Q) (ms : List M) : (takes S q ms).length = ms.length := by
  induction ms generalizing q with
  | nil => rfl
  | cons m ms ih => rw [takes, List.length_cons, ih, List.length_cons]

theorem needed_le_length (q : Q) (ms : List M) : needed S q ms ≤ ms.length := by
  induction ms generalizing q with
  | nil => exact Nat.le_refl _
  | cons m ms ih =>
      rw [needed, List.length_cons]
      split
      · exact Nat.succ_le_succ (ih _)
      · omega

/-- If the taker crosses every maker, it takes as many as it needs and the cap allows. -/
theorem fills_eq_takes (cap : Option Nat) (q : Q) (ms : List M)
    (hcross : ∀ m ∈ ms, crosses m = true) :
    ∀ k, cap = some k → (sweep S crosses cap q ms).fills =
      takes S q (ms.take (min k (needed S q ms))) := by
  fun_induction sweep S crosses cap q ms with
  | case1 => simp [takes]
  | case2 cap q m ms hstop =>
      intro k hk
      rcases hstop with h0 | hc
      · obtain rfl : k = 0 := Option.some.inj (hk.symm.trans h0)
        simp [takes]
      · exact absurd ((hcross m List.mem_cons_self).symm.trans hc) (by decide)
  | case3 cap q m ms hgo hlt ih =>
      intro k hk
      subst hk
      obtain ⟨k, rfl⟩ : ∃ j, k = j + 1 :=
        Nat.exists_eq_succ_of_ne_zero fun h0 => hgo (by simp [h0])
      have ih' := ih (fun n hn => hcross n (List.mem_cons_of_mem _ hn)) k rfl
      have hmin : min (k + 1) (needed S (q - S.openOf m) ms + 1) =
          min k (needed S (q - S.openOf m) ms) + 1 := by omega
      rw [needed, if_pos hlt, hmin, List.take_succ_cons, takes]
      simp only [min_eq_right hlt.le, sub_self]
      rw [← ih', Sweep.cons]
  | case4 cap q m ms hgo _ hlt =>
      intro k hk
      have hpos : k ≠ 0 := fun h0 => hgo (by simp [hk, h0])
      have hmin : min k 1 = 1 := by omega
      rw [needed, if_neg (not_lt_of_gt hlt), hmin]
      simp [takes, min_eq_left hlt.le]
  | case5 cap q m ms hgo h1 h2 =>
      intro k hk
      have hpos : k ≠ 0 := fun h0 => hgo (by simp [hk, h0])
      have hmin : min k 1 = 1 := by omega
      have hm : S.openOf m = q := le_antisymm (not_lt.mp h2) (not_lt.mp h1)
      rw [needed, if_neg h1, hmin]
      simp [takes, hm]

/-- Behind the makers of the fills the queue stays, and the last of them may stay with a part. -/
theorem book_eq_append (cap : Option Nat) (q : Q) (ms : List M) :
    ∃ part, (sweep S crosses cap q ms).book =
        part ++ ms.drop (sweep S crosses cap q ms).fills.length ∧
      ∀ m ∈ part, ∃ f ∈ (sweep S crosses cap q ms).fills, m = S.reduce f.qty f.maker := by
  fun_induction sweep S crosses cap q ms with
  | case1 => exact ⟨[], rfl, by simp⟩
  | case2 => exact ⟨[], rfl, by simp⟩
  | case3 cap q m ms _ _ ih =>
      obtain ⟨part, hbook, hpart⟩ := ih
      refine ⟨part, hbook, fun n hn => ?_⟩
      obtain ⟨f, hf, hnf⟩ := hpart n hn
      exact ⟨f, List.mem_cons_of_mem _ hf, hnf⟩
  | case4 cap q m ms => exact ⟨[S.reduce q m], rfl, by simp⟩
  | case5 => exact ⟨[], rfl, by simp⟩

end Whole

section Part

variable (S : MakerOps M Q) (crosses : M → Bool)

/-- A maker in the queue after a sweep was not filled, or it is what its one fill left of it.
Makers are told apart by their names. -/
theorem book_filled_once {ι : Type*} [DecidableEq ι] (name : M → ι)
    (hname : ∀ x m, name (S.reduce x m) = name m) (cap : Option Nat) (q : Q) (ms : List M)
    (hnodup : (ms.map name).Nodup) :
    ∀ x ∈ (sweep S crosses cap q ms).book,
      (x ∈ ms ∧ (sweep S crosses cap q ms).fills.filter (fun f => name f.maker = name x) = []) ∨
        ∃ f, (sweep S crosses cap q ms).fills.filter (fun f => name f.maker = name x) = [f] ∧
          f.maker ∈ ms ∧ f.makerLeft ≠ 0 ∧ x = S.reduce f.qty f.maker := by
  fun_induction sweep S crosses cap q ms with
  | case1 => simp
  | case2 => exact fun x hx => Or.inl ⟨hx, rfl⟩
  | case3 cap q m ms _ _ ih =>
      intro x hx
      obtain ⟨hm, hms⟩ := List.nodup_cons.mp hnodup
      -- The maker that is exhausted has another name.
      have hne : name m ≠ name x := by
        intro he
        refine hm ?_
        rw [he]
        exact (book_keys S crosses name hname (cap.map Nat.pred) (q - S.openOf m) ms).subset
          (List.mem_map_of_mem hx)
      simp only [Sweep.cons, List.filter_cons, hne, decide_false, Bool.false_eq_true, if_false]
      rcases ih hms x hx with ⟨hmem, hnil⟩ | ⟨f, hone, hf, hleft, rfl⟩
      · exact Or.inl ⟨List.mem_cons_of_mem _ hmem, hnil⟩
      · exact Or.inr ⟨f, hone, List.mem_cons_of_mem _ hf, hleft, rfl⟩
  | case4 cap q m ms _ _ hlt =>
      intro x hx
      obtain ⟨hm, -⟩ := List.nodup_cons.mp hnodup
      rcases List.mem_cons.mp hx with rfl | hx
      · refine Or.inr ⟨⟨m, q, 0, S.openOf m - q⟩, ?_, List.mem_cons_self ..,
          sub_ne_zero.mpr hlt.ne', rfl⟩
        simp [hname]
      · have hne : name m ≠ name x := fun he => hm (he ▸ List.mem_map_of_mem hx)
        exact Or.inl ⟨List.mem_cons_of_mem _ hx, by simp [hne]⟩
  | case5 cap q m ms _ _ _ =>
      intro x hx
      obtain ⟨hm, -⟩ := List.nodup_cons.mp hnodup
      have hne : name m ≠ name x := fun he => hm (he ▸ List.mem_map_of_mem hx)
      exact Or.inl ⟨List.mem_cons_of_mem _ hx, by simp [hne]⟩

/-- A maker is filled in part where the quantity of the taker ends inside it. -/
theorem cut_of_makerLeft [IsOrderedAddMonoid Q] (cap : Option Nat) (q : Q) (ms : List M)
    (hq : 0 < q) : ∀ f ∈ (sweep S crosses cap q ms).fills, f.makerLeft ≠ 0 →
      ∃ pre post, ms = pre ++ f.maker :: post ∧ (∀ x ∈ pre ++ [f.maker], crosses x = true) ∧
        (∀ k, cap = some k → pre.length < k) ∧ (pre.map S.openOf).sum < q ∧
        q < (pre.map S.openOf).sum + S.openOf f.maker := by
  fun_induction sweep S crosses cap q ms with
  | case1 => simp
  | case2 => simp
  | case3 cap q m ms hgo hlt ih =>
      intro f hf hleft
      rcases List.mem_cons.mp hf with rfl | hf
      · exact absurd rfl hleft
      obtain ⟨pre, post, rfl, hcr, hcap, hlo, hhi⟩ := ih (sub_pos.mpr hlt) f hf hleft
      refine ⟨m :: pre, post, rfl, ?_, ?_, ?_, ?_⟩
      · rintro x (_ | ⟨_, hx⟩)
        · exact crosses_of_go crosses hgo
        · exact hcr x hx
      · rintro k rfl
        have hk := hcap (k - 1) rfl
        have hk0 := cap_pos_of_go crosses hgo k rfl
        rw [List.length_cons]
        omega
      · rw [List.map_cons, List.sum_cons]
        exact lt_sub_iff_add_lt'.mp hlo
      · rw [List.map_cons, List.sum_cons, add_assoc]
        exact sub_lt_iff_lt_add'.mp hhi
  | case4 cap q m ms hgo _ hlt =>
      intro f hf _
      rw [List.mem_singleton] at hf
      subst hf
      refine ⟨[], ms, rfl, ?_, ?_, ?_, ?_⟩
      · simpa using crosses_of_go crosses hgo
      · exact cap_pos_of_go crosses hgo
      · simpa using hq
      · simpa using hlt
  | case5 =>
      intro f hf hleft
      rw [List.mem_singleton] at hf
      subst hf
      exact absurd rfl hleft

end Part

section Rel

variable {N : Type*}

/-- Two fills of related makers, with the same quantities. -/
structure Fill.Rel (R : M → N → Prop) (x : Fill M Q) (y : Fill N Q) : Prop where
  /-- The makers are related. -/
  maker : R x.maker y.maker
  /-- The same quantity changes hands. -/
  qty : y.qty = x.qty
  /-- The same is left of the takers. -/
  takerLeft : y.takerLeft = x.takerLeft
  /-- The same is left of the makers. -/
  makerLeft : y.makerLeft = x.makerLeft

/-- Two sweeps of related queues, with the same quantities. -/
structure Sweep.Rel (R : M → N → Prop) (r : Sweep M Q) (r' : Sweep N Q) : Prop where
  /-- The fills are related, one by one. -/
  fills : List.Forall₂ (Fill.Rel R) r.fills r'.fills
  /-- The queues are related. -/
  book : List.Forall₂ R r.book r'.book
  /-- The same is left of the takers. -/
  left : r'.left = r.left

/-- Sweeps of related queues are related, if the relation respects quantities,
reductions and crossing. -/
theorem sweep_rel (S : MakerOps M Q) (T : MakerOps N Q) {R : M → N → Prop}
    (hopen : ∀ a b, R a b → T.openOf b = S.openOf a)
    (hred : ∀ x a b, R a b → R (S.reduce x a) (T.reduce x b)) {crosses : M → Bool}
    {crosses' : N → Bool} (hcr : ∀ a b, R a b → crosses' b = crosses a) {ms : List M}
    {ns : List N} (h : List.Forall₂ R ms ns) : ∀ (cap : Option Nat) (q : Q),
      (sweep S crosses cap q ms).Rel R (sweep T crosses' cap q ns) := by
  induction h with
  | nil =>
      intro cap q
      rw [sweep_nil, sweep_nil]
      exact ⟨.nil, .nil, rfl⟩
  | @cons m n ms ns hmn h ih =>
      intro cap q
      by_cases hstop : cap = some 0 ∨ crosses m = false
      · rw [sweep_stop S hstop, sweep_stop T (by rwa [hcr m n hmn])]
        exact ⟨.nil, .cons hmn h, rfl⟩
      have hcap : cap ≠ some 0 := fun h0 => hstop (Or.inl h0)
      have hc := crosses_of_go crosses hstop
      have hc' : crosses' n = true := (hcr m n hmn).trans hc
      have ho := hopen m n hmn
      rcases lt_trichotomy (S.openOf m) q with hlt | heq | hgt
      · obtain ⟨hf, hb, hl⟩ := ih (cap.map Nat.pred) (q - S.openOf m)
        rw [sweep_more S hcap hc hlt, sweep_more T hcap hc' (ho.trans_lt hlt), ho]
        exact ⟨.cons ⟨hmn, rfl, rfl, rfl⟩ hf, hb, hl⟩
      · rw [sweep_exact S hcap hc heq, sweep_exact T hcap hc' (ho.trans heq)]
        exact ⟨.cons ⟨hmn, rfl, rfl, rfl⟩ .nil, h, rfl⟩
      · rw [sweep_part S hcap hc hgt, sweep_part T hcap hc' (hgt.trans_eq ho.symm), ho]
        exact ⟨.cons ⟨hmn, rfl, rfl, rfl⟩ .nil, .cons (hred q m n hmn) h, rfl⟩

end Rel

section Map

variable {N R : Type*}

/-- A fill seen through maps of the makers and of the quantities. -/
def Fill.map (f : M → N) (g : Q → R) (x : Fill M Q) : Fill N R :=
  ⟨f x.maker, g x.qty, g x.takerLeft, g x.makerLeft⟩

/-- A sweep seen through maps of the makers and of the quantities. -/
def Sweep.map (f : M → N) (g : Q → R) (r : Sweep M Q) : Sweep N R :=
  ⟨r.fills.map (Fill.map f g), r.book.map f, g r.left⟩

variable [AddCommGroup R] [LinearOrder R]

/-- A sweep commutes with a map of the makers that respects quantities,
reductions and crossing. -/
theorem sweep_map (S : MakerOps M Q) (T : MakerOps N R) (f : M → N) (g : Q →+ R)
    (hg : StrictMono g) (hopen : ∀ m, T.openOf (f m) = g (S.openOf m))
    (hred : ∀ x m, T.reduce (g x) (f m) = f (S.reduce x m)) (crosses : M → Bool)
    (crosses' : N → Bool) (cap : Option Nat) (q : Q) (ms : List M)
    (hcr : ∀ m ∈ ms, crosses' (f m) = crosses m) :
    sweep T crosses' cap (g q) (ms.map f) = (sweep S crosses cap q ms).map f g := by
  fun_induction sweep S crosses cap q ms with
  | case1 => simp [Sweep.map]
  | case2 cap q m ms h =>
      rw [List.map_cons, sweep_stop T (by rwa [hcr m (List.mem_cons_self ..)])]
      simp [Sweep.map]
  | case3 cap q m ms hgo h ih =>
      have hc := crosses_of_go crosses hgo
      rw [List.map_cons, sweep_more T (fun h0 => hgo (Or.inl h0))
        (by rw [hcr m (List.mem_cons_self ..), hc]) (by rw [hopen]; exact hg h), hopen, ← map_sub,
        ih fun n hn => hcr n (List.mem_cons_of_mem _ hn)]
      simp [Sweep.map, Sweep.cons, Fill.map]
  | case4 cap q m ms hgo _ h =>
      have hc := crosses_of_go crosses hgo
      rw [List.map_cons, sweep_part T (fun h0 => hgo (Or.inl h0))
        (by rw [hcr m (List.mem_cons_self ..), hc]) (by rw [hopen]; exact hg h), hopen, hred]
      simp [Sweep.map, Fill.map]
  | case5 cap q m ms hgo h1 h2 =>
      have hc := crosses_of_go crosses hgo
      have hm : S.openOf m = q := le_antisymm (not_lt.mp h2) (not_lt.mp h1)
      rw [List.map_cons, sweep_exact T (fun h0 => hgo (Or.inl h0))
        (by rw [hcr m (List.mem_cons_self ..), hc]) (by rw [hopen, hm])]
      simp [Sweep.map, Fill.map]

end Map

end PriceTime
