import MatchRust.Hp.Reachable

/-!
# The client index

The engine keeps, for every client, the list of its resting orders, and cancels
by client through it.  The index is updated in five places: when an order
rests, in a cancel by slot, in a cancel by client, and for filled makers in
both matching loops.  The loops skip client zero, although `onLimit` indexes
client zero like any other, so a filled order of client zero stays in the
index.  Its slot is then given to another order, and a cancel for client zero
takes that order out (`stale_entry_cancels_other`).

As long as no order of client zero is filled, the index is exact
(`run_index_exact`), and a command makes it inexact exactly if it fills one.
-/

namespace MatchCoreHp

open PriceTime

/-! ## Indexes and relations -/

/-- The orders of a client. -/
def ClientIndex.of (index : ClientIndex) (client : Nat) : List Nat := (index[client]?).getD []

/-- The index lists for every client exactly the identifiers a relation gives
it, each once, and has no entry for a client without any. -/
structure ClientIndex.Lists (index : ClientIndex) (R : Nat → Nat → Prop) : Prop where
  no_empty : ∀ c : Nat, index[c]? ≠ some []
  nodup : ∀ c, (index.of c).Nodup
  mem_iff : ∀ c i, i ∈ index.of c ↔ R c i

namespace ClientIndex

variable {index : ClientIndex} {R : Nat → Nat → Prop} {client id : Nat}

theorem getElem?_insert_eq (index : ClientIndex) (client c : Nat) (list : List Nat) :
    (index.insert client list)[c]? = if c = client then some list else index[c]? := by
  rw [Std.TreeMap.getElem?_insert]
  exact if_congr (Std.LawfulEqCmp.compare_eq_iff_eq.trans eq_comm) rfl rfl

theorem getElem?_erase_eq (index : ClientIndex) (client c : Nat) :
    (index.erase client)[c]? = if c = client then none else index[c]? := by
  rw [Std.TreeMap.getElem?_erase]
  exact if_congr (Std.LawfulEqCmp.compare_eq_iff_eq.trans eq_comm) rfl rfl

theorem of_push (index : ClientIndex) (client id c : Nat) :
    (index.push client id).of c = if c = client then index.of client ++ [id] else index.of c := by
  rw [of, push, getElem?_insert_eq]
  split
  next => rfl
  next => rfl

theorem of_erase (index : ClientIndex) (client c : Nat) :
    ClientIndex.of (index.erase client) c = if c = client then [] else index.of c := by
  rw [of, getElem?_erase_eq]
  split
  next => rfl
  next => rfl

/-- What `drop` leaves of the entries. -/
theorem getElem?_drop (index : ClientIndex) (client id c : Nat) :
    (index.drop client id)[c]? =
      if c = client then
        if (index.of client).filter (fun x => x ≠ id) = [] then none
        else some ((index.of client).filter fun x => x ≠ id)
      else index[c]? := by
  unfold drop of
  cases h : index[client]? with
  | none =>
      by_cases hc : c = client
      · rw [if_pos hc, hc, h]
        rfl
      · rw [if_neg hc]
  | some list =>
      dsimp only [Option.getD_some]
      by_cases he : list.filter (fun x => x ≠ id) = []
      · rw [if_pos (by rw [he]; rfl), getElem?_erase_eq, if_pos he]
      · rw [if_neg (by rwa [List.isEmpty_iff]), getElem?_insert_eq, if_neg he]

theorem of_drop (index : ClientIndex) (client id c : Nat) :
    (index.drop client id).of c =
      if c = client then (index.of client).filter (fun x => x ≠ id) else index.of c := by
  rw [of, getElem?_drop]
  by_cases hc : c = client
  · rw [if_pos hc, if_pos hc]
    split
    next he => rw [he]; rfl
    next => rfl
  · rw [if_neg hc, if_neg hc]
    rfl

namespace Lists

theorem congr {R' : Nat → Nat → Prop} (h : index.Lists R) (hR : ∀ c i, R c i ↔ R' c i) :
    index.Lists R' :=
  ⟨h.no_empty, h.nodup, fun c i => (h.mem_iff c i).trans (hR c i)⟩

theorem empty (hR : ∀ c i, ¬ R c i) : (∅ : ClientIndex).Lists R := by
  have hget : ∀ c : Nat, (∅ : ClientIndex)[c]? = none := fun c => Std.TreeMap.getElem?_emptyc
  have hof : ∀ c, (∅ : ClientIndex).of c = [] := fun c => by rw [of, hget]; rfl
  refine ⟨fun c => ?_, fun c => ?_, fun c i => ?_⟩
  · rw [hget]
    nofun
  · rw [hof]
    exact List.nodup_nil
  · rw [hof]
    exact ⟨nofun, fun hr => absurd hr (hR c i)⟩

/-- An order that comes to rest is added. -/
theorem push (h : index.Lists R) (hfresh : ¬ R client id) :
    (index.push client id).Lists fun c i => R c i ∨ c = client ∧ i = id := by
  refine ⟨fun c => ?_, fun c => ?_, fun c i => ?_⟩
  · rw [ClientIndex.push, getElem?_insert_eq]
    split
    next => simp
    next => exact h.no_empty c
  · rw [of_push]
    split
    next =>
      refine List.nodup_append.mpr ⟨h.nodup client, List.nodup_singleton id, fun a ha b hb => ?_⟩
      rw [List.mem_singleton.mp hb]
      rintro rfl
      exact hfresh ((h.mem_iff client a).mp ha)
    next => exact h.nodup c
  · rw [of_push, ← h.mem_iff c i]
    split
    next hc => simp [hc]
    next hc => simp [hc]

/-- An order that leaves the book is taken from its client. -/
theorem drop (h : index.Lists R) (howner : ∀ c, R c id → c = client) :
    (index.drop client id).Lists fun c i => R c i ∧ i ≠ id := by
  refine ⟨fun c => ?_, fun c => ?_, fun c i => ?_⟩
  · rw [getElem?_drop]
    split
    next =>
      split
      next => nofun
      next hne => exact fun he => hne (Option.some.inj he)
    next => exact h.no_empty c
  · rw [of_drop]
    split
    next => exact (h.nodup client).filter _
    next => exact h.nodup c
  · rw [of_drop, ← h.mem_iff c i]
    split
    next hc => simp [hc, List.mem_filter]
    next hc =>
      refine (and_iff_left_of_imp fun hi he => hc ?_).symm
      exact howner c (he ▸ (h.mem_iff c i).mp hi)

/-- A client is taken out of the index. -/
theorem erase (h : index.Lists R) (client : Nat) :
    ClientIndex.Lists (index.erase client) fun c i => R c i ∧ c ≠ client := by
  refine ⟨fun c => ?_, fun c => ?_, fun c i => ?_⟩
  · rw [getElem?_erase_eq]
    split
    next => nofun
    next => exact h.no_empty c
  · rw [of_erase]
    split
    next => exact List.nodup_nil
    next => exact h.nodup c
  · rw [of_erase, ← h.mem_iff c i]
    split
    next hc => simp [hc]
    next hc => simp [hc]

end Lists

/-- Filled makers are taken from their clients, if none is of client zero. -/
theorem Lists.dropFilled {fills : List (Fill HpOrder Int)} (h : index.Lists R)
    (hzero : ∀ f ∈ filled fills, f.maker.clientId ≠ 0)
    (howner : ∀ f ∈ fills, ∀ c, R c f.maker.id → c = f.maker.clientId) :
    (dropFilled index fills).Lists fun c i => R c i ∧ ∀ f ∈ filled fills, f.maker.id ≠ i := by
  induction fills generalizing index R with
  | nil => exact h.congr fun c i => by simp [filled]
  | cons f fills ih =>
      have howner' := fun g hg => howner g (List.mem_cons_of_mem _ hg)
      rw [MatchCoreHp.dropFilled, List.foldl_cons]
      by_cases hf : f.makerLeft = 0
      · have hfilled : filled (f :: fills) = f :: filled fills := by simp [filled, hf]
        rw [hfilled] at hzero ⊢
        rw [if_pos ⟨hf, hzero f (List.mem_cons_self ..)⟩]
        refine (ih (h.drop (howner f (List.mem_cons_self ..)))
          (fun g hg => hzero g (List.mem_cons_of_mem _ hg))
          fun g hg c hr => howner' g hg c hr.1).congr fun c i => ?_
        rw [and_assoc, List.forall_mem_cons, ne_comm]
      · have hfilled : filled (f :: fills) = filled fills := by simp [filled, hf]
        rw [hfilled] at hzero ⊢
        rw [if_neg fun hd => hf hd.1]
        exact ih h hzero howner'

/-- The matching loops leave client zero alone. -/
theorem of_dropFilled_zero (index : ClientIndex) (fills : List (Fill HpOrder Int)) :
    (dropFilled index fills).of 0 = index.of 0 := by
  induction fills generalizing index with
  | nil => rfl
  | cons f fills ih =>
      rw [dropFilled, List.foldl_cons]
      refine (ih _).trans ?_
      split
      next hd => rw [of_drop, if_neg hd.2.symm]
      next => rfl

theorem mem_of_push {c i : Nat} (hi : i ∈ index.of c) : i ∈ (index.push client id).of c := by
  rw [of_push]
  split
  next hc => exact List.mem_append_left _ (hc ▸ hi)
  next => exact hi

end ClientIndex

/-! ## Owners of resting orders -/

/-- An order of this client and identifier rests. -/
def Queues.Owns (q : Queues) (client id : Nat) : Prop :=
  ∃ o ∈ q.orders, o.clientId = client ∧ o.id = id

/-- The client and the identifier of an order. -/
def owner (o : HpOrder) : Nat × Nat := (o.clientId, o.id)

namespace Queues

variable {q : Queues} {client c id i : Nat}

theorem owns_iff : q.Owns c i ↔ (c, i) ∈ q.orders.map owner := by
  simp [Owns, owner, List.mem_map]

theorem owns_set_iff (q : Queues) (side : Side) (l : List HpOrder) :
    (q.set side l).Owns c i ↔ (c, i) ∈ l.map owner ∨ (c, i) ∈ (q side.opp).map owner := by
  rw [owns_iff, ((orders_set_perm q side l).map owner).mem_iff, List.map_append, List.mem_append]

theorem owns_without : (q.without id).Owns c i ↔ q.Owns c i ∧ i ≠ id := by
  simp only [Owns, mem_orders, mem_without]
  constructor
  · rintro ⟨o, ⟨s, hs, hne⟩, hc, rfl⟩
    exact ⟨⟨o, ⟨s, hs⟩, hc, rfl⟩, hne⟩
  · rintro ⟨⟨o, ⟨s, hs⟩, hc, rfl⟩, hne⟩
    exact ⟨o, ⟨s, hs, hne⟩, hc, rfl⟩

theorem owns_withoutAll {ids : List Nat} :
    (q.withoutAll ids).Owns c i ↔ q.Owns c i ∧ i ∉ ids := by
  simp only [Owns, mem_orders, mem_withoutAll]
  constructor
  · rintro ⟨o, ⟨s, hs, hne⟩, hc, rfl⟩
    exact ⟨⟨o, ⟨s, hs⟩, hc, rfl⟩, hne⟩
  · rintro ⟨⟨o, ⟨s, hs⟩, hc, rfl⟩, hne⟩
    exact ⟨o, ⟨s, hs, hne⟩, hc, rfl⟩

/-- An order has one owner. -/
theorem Owns.unique (hnd : (q.orders.map HpOrder.id).Nodup) (h : q.Owns client i)
    (h' : q.Owns c i) : client = c := by
  obtain ⟨o, ho, rfl, rfl⟩ := h
  obtain ⟨o', ho', rfl, hid⟩ := h'
  rw [List.inj_on_of_nodup_map hnd ho' ho hid]

/-- Of a list whose keys are distinct, what is not in front is behind. -/
theorem mem_behind_iff {α κ : Type*} (key : α → κ) {l front behind : List α} {x : α}
    (hp : l.Perm (front ++ behind)) (hnd : (l.map key).Nodup) :
    x ∈ behind ↔ x ∈ l ∧ ∀ y ∈ front, key y ≠ key x := by
  rw [hp.mem_iff, List.mem_append]
  rw [(hp.map key).nodup_iff, List.map_append] at hnd
  constructor
  · refine fun hx => ⟨Or.inr hx, fun y hy he => ?_⟩
    exact (List.nodup_append.mp hnd).2.2 _ (List.mem_map_of_mem hy) _ (List.mem_map_of_mem hx) he
  · rintro ⟨hx | hx, hne⟩
    · exact absurd rfl (hne x hx)
    · exact hx

/-- A sweep takes the makers it fills from their owners. -/
theorem owns_swept (hnd : (q.orders.map HpOrder.id).Nodup) (side : Side) (limitTick : Option Int)
    (maxFills : Option Nat) (qtyLot : Int) :
    (q.set side.opp (takerSweep q side limitTick maxFills qtyLot).book).Owns c i ↔
      q.Owns c i ∧
        ∀ f ∈ filled (takerSweep q side limitTick maxFills qtyLot).fills, f.maker.id ≠ i := by
  have hkeys := filled_append_book makers (crosses side limitTick) owner (fun _ _ => rfl) maxFills
    qtyLot (q side.opp)
  have hp := (orders_perm q side.opp).map owner
  rw [List.map_append, ← hkeys, List.append_assoc, ← List.map_append] at hp
  have hnd' : ((q.orders.map owner).map Prod.snd).Nodup := by rwa [List.map_map]
  have hmem : (c, i) ∈ _ ↔ _ := mem_behind_iff Prod.snd hp hnd'
  rw [List.map_append, List.mem_append] at hmem
  rw [owns_set_iff, owns_iff]
  refine hmem.trans (and_congr_right fun _ => ?_)
  simp [owner, takerSweep]

theorem mem_foldr_restIn {side : Side} {left l : List HpOrder} {o : HpOrder} :
    o ∈ left.foldr (restIn side) l ↔ o ∈ left ∨ o ∈ l := by
  induction left with
  | nil => simp
  | cons x left ih => rw [List.foldr_cons, mem_restIn, ih, List.mem_cons, or_assoc]

/-- What is left of a taker joins the orders of its client. -/
theorem owns_settle {side : Side} {sw : Sweep HpOrder Int} {left : List HpOrder} :
    (q.settle side sw left).Owns c i ↔
      (q.set side.opp sw.book).Owns c i ∨ ∃ o ∈ left, o.clientId = c ∧ o.id = i := by
  rw [settle, owns_set_iff, owns_set_iff, set_self, Side.opp_opp]
  simp only [List.mem_map, mem_foldr_restIn, owner, Prod.mk.injEq]
  constructor
  · rintro (⟨o, ho | ho, he⟩ | hb)
    · exact Or.inr ⟨o, ho, he⟩
    · exact Or.inl (Or.inr ⟨o, ho, he⟩)
    · exact Or.inl (Or.inl hb)
  · rintro ((hb | ⟨o, ho, he⟩) | ⟨o, ho, he⟩)
    · exact Or.inr hb
    · exact Or.inl ⟨o, Or.inr ho, he⟩
    · exact Or.inl ⟨o, Or.inl ho, he⟩

end Queues

/-! ## The index after a taker -/

/-- At most one order, with an identifier that no resting order has. -/
def Queues.FreshLeft (q : Queues) (left : List HpOrder) : Prop :=
  left = [] ∨ ∃ o, left = [o] ∧ ∀ c, ¬ q.Owns c o.id

namespace ClientIndex

variable {index : ClientIndex} {q : Queues} {left : List HpOrder}

theorem mem_of_indexRested {c i : Nat} (hi : i ∈ index.of c) :
    i ∈ (indexRested index left).of c := by
  induction left generalizing index with
  | nil => exact hi
  | cons o left ih => exact ih (mem_of_push hi)

theorem Lists.indexRested {R : Nat → Nat → Prop} (h : index.Lists R) (hleft : q.FreshLeft left)
    (hR : ∀ c i, R c i → q.Owns c i) :
    (indexRested index left).Lists fun c i => R c i ∨ ∃ o ∈ left, o.clientId = c ∧ o.id = i := by
  rcases hleft with rfl | ⟨o, rfl, hfresh⟩
  · exact h.congr fun c i => by simp
  · refine (h.push fun hr => hfresh _ (hR _ _ hr)).congr fun c i => or_congr_right ?_
    simp [eq_comm]

/-- After a taker the index is exact if and only if no maker of client zero was
filled. -/
theorem lists_settle_iff (hnd : (q.orders.map HpOrder.id).Nodup) (h : index.Lists q.Owns)
    (hleft : q.FreshLeft left) {side : Side} {limitTick : Option Int} {maxFills : Option Nat}
    {qtyLot : Int} {sw : Sweep HpOrder Int}
    (hsw : sw = takerSweep q side limitTick maxFills qtyLot) :
    (indexRested (dropFilled index sw.fills) left).Lists (q.settle side sw left).Owns ↔
      ∀ f ∈ filled sw.fills, f.maker.clientId ≠ 0 := by
  have howns : ∀ f ∈ sw.fills, q.Owns f.maker.clientId f.maker.id := by
    intro f hf
    have hmem := (fills_initial makers (crosses side limitTick) maxFills qtyLot (q side.opp)).subset
      (List.mem_map_of_mem (hsw ▸ hf))
    exact ⟨f.maker, Queues.mem_orders.mpr ⟨side.opp, hmem⟩, rfl, rfl⟩
  have hswept : ∀ c i, (q.set side.opp sw.book).Owns c i ↔
      q.Owns c i ∧ ∀ f ∈ filled sw.fills, f.maker.id ≠ i := by
    intro c i
    rw [hsw]
    exact Queues.owns_swept hnd side limitTick maxFills qtyLot
  constructor
  · -- A filled maker of client zero is still listed, but does not rest.
    intro hx f hf h0
    have hin : f ∈ sw.fills := (List.mem_filter.mp hf).1
    have hmem : f.maker.id ∈ index.of 0 := (h.mem_iff 0 _).mpr (h0 ▸ howns f hin)
    rw [← of_dropFilled_zero index sw.fills] at hmem
    rcases Queues.owns_settle.mp ((hx.mem_iff 0 _).mp (mem_of_indexRested hmem)) with hb | hl
    · exact ((hswept _ _).mp hb).2 f hf rfl
    · obtain ⟨o, ho, -, hid⟩ := hl
      rcases hleft with rfl | ⟨x, rfl, hfresh⟩
      · cases ho
      · rw [List.mem_singleton.mp ho] at hid
        exact hfresh _ (hid ▸ howns f hin)
  · intro hzero
    have hdrop := h.dropFilled hzero fun f hf c hr => hr.unique hnd (howns f hf)
    refine (hdrop.indexRested hleft fun c i hr => hr.1).congr fun c i => ?_
    rw [Queues.owns_settle, hswept]

end ClientIndex

/-! ## The index of an engine -/

/-- A taker of this side, limit, cap and lots fills an order of client zero: it
crosses the order, has lots for all orders up to it, and the cap reaches it. -/
def FillsZero (queue : List HpOrder) (side : Side) (limitTick : Option Int)
    (maxFills : Option Nat) (qtyLot : Int) : Prop :=
  ∃ n : Fin queue.length, (queue.get n).clientId = 0 ∧ crosses side limitTick (queue.get n) = true ∧
    sumOpen (queue.take (n + 1)) ≤ qtyLot ∧ maxFills.all fun k => (n : Nat) < k

instance (queue : List HpOrder) (side : Side) (limitTick : Option Int) (maxFills : Option Nat)
    (qtyLot : Int) : Decidable (FillsZero queue side limitTick maxFills qtyLot) :=
  inferInstanceAs (Decidable (∃ _ : Fin _, _))

/-- Orders that are crossed come first. -/
theorem Ranked.crosses_front {side : Side} {limitTick : Option Int} {l : List HpOrder}
    (h : Ranked side.opp l) :
    l.Pairwise fun a b => crosses side limitTick b = true → crosses side limitTick a = true := by
  refine List.Pairwise.imp (fun {a b} hab hb => ?_) h
  by_contra ha
  rw [not_crosses_behind (Bool.eq_false_iff.mpr ha) hab] at hb
  cases hb

/-- Which takers fill an order of client zero. -/
theorem fillsZero_iff {q : Queues} {side : Side} {limitTick : Option Int} {maxFills : Option Nat}
    {qtyLot : Int} (hr : Ranked side.opp (q side.opp)) (hlive : ∀ o ∈ q side.opp, 0 < o.openLot)
    (hpos : 0 < qtyLot) :
    FillsZero (q side.opp) side limitTick maxFills qtyLot ↔
      ∃ f ∈ filled (takerSweep q side limitTick maxFills qtyLot).fills, f.maker.clientId = 0 := by
  have hiff := exists_filled_iff makers (crosses side limitTick) HpOrder.clientId (fun _ _ => rfl)
    maxFills qtyLot (q side.opp) hpos hlive hr.crosses_front 0
  refine Iff.trans ?_ hiff.symm
  constructor
  · rintro ⟨n, h0, hc, hsum, hcap⟩
    refine ⟨(q side.opp).take n, (q side.opp).get n, (q side.opp).drop (n + 1), ?_, h0, hc, ?_, ?_⟩
    · rw [List.get_eq_getElem, ← List.drop_eq_getElem_cons, List.take_append_drop]
    · rw [List.get_eq_getElem, List.take_append_getElem]
      exact hsum
    · rintro k rfl
      rw [List.length_take, min_eq_left n.isLt.le]
      simpa using hcap
  · rintro ⟨pre, m, post, hq, h0, hc, hsum, hcap⟩
    have hlt : pre.length < (q side.opp).length := by simp [hq]
    have hget : (q side.opp).get ⟨pre.length, hlt⟩ = m := by
      rw [List.get_eq_getElem, List.getElem_of_eq hq, List.getElem_append_right le_rfl]
      simp
    refine ⟨⟨pre.length, hlt⟩, hget ▸ h0, hget ▸ hc, ?_, ?_⟩
    · have htake : (q side.opp).take (pre.length + 1) = pre ++ [m] := by
        rw [hq]
        exact List.take_length_add_append 1
      rw [htake]
      exact hsum
    · cases maxFills with
      | none => rfl
      | some k => simpa using hcap k rfl

section Engine

variable {B A : Type} [LevelIndex B] [LevelIndex A]
  [LawfulLevelIndex .buy B] [LawfulLevelIndex .sell A] {exact : Prop} {e : HpEngine B A}

/-- The index lists for every client its resting orders. -/
def HpEngine.IndexExact (e : HpEngine B A) : Prop := e.clientToId.Lists e.book.queue.Owns

/-- The command fills an order of client zero. -/
def FillsClientZero (e : HpEngine B A) : HpCommand → Prop
  | .limit side priceTick qtyLot _ _ =>
      FillsZero (e.book.queue side.opp) side (some priceTick) none qtyLot
  | .cancel _ => False
  | .market side qtyLot _ maxFills _ =>
      FillsZero (e.book.queue side.opp) side none maxFills qtyLot

instance (e : HpEngine B A) : (cmd : HpCommand) → Decidable (FillsClientZero e cmd)
  | .limit side priceTick qtyLot _ _ => inferInstanceAs
      (Decidable (FillsZero (e.book.queue side.opp) side (some priceTick) none qtyLot))
  | .cancel _ => inferInstanceAs (Decidable False)
  | .market side qtyLot _ maxFills _ => inferInstanceAs
      (Decidable (FillsZero (e.book.queue side.opp) side none maxFills qtyLot))

omit [LawfulLevelIndex .buy B] [LawfulLevelIndex .sell A] in
/-- A taker without lots fills nothing. -/
theorem not_fillsZero {q : Queues} (h : Represents exact e.book q []) {side : Side}
    {limitTick : Option Int} {maxFills : Option Nat} {qtyLot : Int} (hpos : ¬ 0 < qtyLot) :
    ¬ FillsZero (q side.opp) side limitTick maxFills qtyLot := by
  rintro ⟨n, -, -, hsum, -⟩
  have hlive : ∀ o ∈ (q side.opp).take (n + 1), 0 < o.openLot :=
    fun o ho => ((h.side side.opp).live o (List.mem_of_mem_take ho)).1
  rw [List.take_succ_eq_append_getElem n.isLt] at hsum hlive
  have hpre : 0 ≤ sumOpen ((q side.opp).take n) :=
    sumOpen_nonneg fun o ho => hlive o (List.mem_append_left _ ho)
  have hlast := hlive _ (List.mem_append_right _ (List.mem_singleton_self _))
  simp only [sumOpen, List.map_append, List.sum_append, List.map_cons, List.map_nil,
    List.sum_singleton] at hsum hpre
  omega

omit [LawfulLevelIndex .buy B] [LawfulLevelIndex .sell A] in
/-- The slot of a new order is not one of a resting order. -/
theorem Represents.fresh {q : Queues} (h : Represents exact e.book q []) (c : Nat) :
    ¬ q.Owns c e.book.store.nextId := by
  rintro ⟨o, ho, -, hid⟩
  have hget := h.holds.get ho
  rw [hid, Slab.get_nextId] at hget
  cases hget

omit [LawfulLevelIndex .buy B] [LawfulLevelIndex .sell A] in
theorem Represents.freshLeft {q : Queues} (h : Represents exact e.book q []) {o : HpOrder}
    (hid : o.id = e.book.store.nextId) (sw : Sweep HpOrder Int) : q.FreshLeft (leftover o sw) := by
  rw [leftover]
  split
  next => exact Or.inr ⟨_, rfl, fun c => hid ▸ h.fresh c⟩
  next => exact Or.inl rfl

/-- The index after a taker has settled. -/
theorem HpEngine.Settled.indexExact_iff {e' : HpEngine B A} {side : Side} {limitTick : Option Int}
    {maxFills : Option Nat} {qtyLot : Int} {left : List HpOrder} {events : List HpEvent}
    {sw : Sweep HpOrder Int} (h : Represents exact e.book e.book.queue []) (hx : e.IndexExact)
    (hpos : 0 < qtyLot) (hleft : e.book.queue.FreshLeft left)
    (hsw : sw = takerSweep e.book.queue side limitTick maxFills qtyLot)
    (hset : Settled exact (e.book.queue.settle side sw left) events
      (indexRested (dropFilled e.clientToId sw.fills) left) e') :
    e'.IndexExact ↔ ¬ FillsZero (e.book.queue side.opp) side limitTick maxFills qtyLot := by
  have hs := h.side side.opp
  rw [IndexExact, hset.clients, hset.book.queue_eq,
    ClientIndex.lists_settle_iff h.holds.nodup hx hleft hsw,
    fillsZero_iff hs.ranked (fun o ho => (hs.live o ho).1) hpos, ← hsw]
  exact ⟨fun hz ⟨f, hf, h0⟩ => hz f hf h0, fun hz f hf h0 => hz ⟨f, hf, h0⟩⟩

theorem HpEngine.indexExact_onLimit_iff (h : EngineInv exact e) (hx : e.IndexExact) (side : Side)
    (priceTick qtyLot : Int) (ts clientId : Nat) :
    (e.onLimit side priceTick qtyLot ts clientId).IndexExact ↔
      ¬ FillsZero (e.book.queue side.opp) side (some priceTick) none qtyLot := by
  by_cases hpos : 0 < qtyLot
  · have hset : Settled False _ _ _ (e.onLimit side priceTick qtyLot ts clientId) :=
      onLimit_settled h.book.weaken hpos rfl rfl False.elim
    exact hset.indexExact_iff h.book.weaken hx hpos (h.book.weaken.freshLeft rfl _) rfl
  · rw [onLimit, if_pos (not_lt.mp hpos)]
    exact iff_of_true hx (not_fillsZero h.book hpos)

theorem HpEngine.indexExact_onMarket_iff (h : EngineInv exact e) (hx : e.IndexExact) (side : Side)
    (qtyLot : Int) (ts : Nat) (maxFills : Option Nat) (clientId : Nat) :
    (e.onMarket side qtyLot ts maxFills clientId).IndexExact ↔
      ¬ FillsZero (e.book.queue side.opp) side none maxFills qtyLot := by
  by_cases hpos : 0 < qtyLot
  · have hset : Settled exact _ _ _ (e.onMarket side qtyLot ts maxFills clientId) :=
      onMarket_settled h.book hpos rfl rfl
    exact hset.indexExact_iff h.book hx hpos (Or.inl rfl) rfl
  · rw [onMarket, if_pos (not_lt.mp hpos)]
    exact iff_of_true hx (not_fillsZero h.book hpos)

/-- A cancel by client revokes the orders of the client, and these only. -/
structure CancelsClient (e e' : HpEngine B A) (client : Nat) (ids : List Nat) : Prop where
  nodup : ids.Nodup
  mem_iff : ∀ i, i ∈ ids ↔ ∃ o ∈ e.book.queue.orders, o.clientId = client ∧ o.id = i
  events : e'.events = ids.map fun i => .revoke i client 0
  resting : ∀ side o, o ∈ e'.book.queue side ↔ o ∈ e.book.queue side ∧ o.clientId ≠ client

/-- With an exact index, a cancel of an empty slot cancels by client. -/
theorem HpEngine.onCancel_cancelsClient (h : EngineInv exact e) (hx : e.IndexExact)
    (hev : e.events = []) {id : Nat} (hget : e.book.store.get id = none) :
    CancelsClient e (e.onCancel id) id (e.clientToId.of id) ∧ (e.onCancel id).IndexExact := by
  have hmem := hx.mem_iff id
  have hlive : ∀ i ∈ e.clientToId.of id, ∃ s, ∃ o ∈ e.book.queue s, o.id = i := by
    intro i hi
    obtain ⟨o, ho, -, hid⟩ := (hmem i).mp hi
    obtain ⟨s, hs⟩ := Queues.mem_orders.mp ho
    exact ⟨s, o, hs, hid⟩
  -- An order of the queues is of the client exactly if the index has it there.
  have howner : ∀ {s o}, o ∈ e.book.queue s →
      (o.id ∉ e.clientToId.of id ↔ o.clientId ≠ id) := by
    intro s o ho
    have hself : e.book.queue.Owns o.clientId o.id := ⟨o, Queues.mem_orders.mpr ⟨s, ho⟩, rfl, rfl⟩
    rw [hmem]
    exact not_congr ⟨fun hr => hself.unique h.book.holds.nodup hr, fun he => he ▸ hself⟩
  cases hlist : e.clientToId[id]? with
  | none =>
      have hof : e.clientToId.of id = [] := by rw [ClientIndex.of, hlist]; rfl
      rw [onCancel_none hget hlist]
      refine ⟨⟨hx.nodup id, hmem, by rw [hev, hof]; rfl, fun s o => ?_⟩, hx⟩
      exact (and_iff_left_of_imp fun ho => (howner ho).mp (by rw [hof]; exact nofun)).symm
  | some list =>
      have hof : e.clientToId.of id = list := by rw [ClientIndex.of, hlist]; rfl
      obtain ⟨hrep, hcl, hevents⟩ := onCancel_client h.book hget hlist
      rw [← hof] at hrep hevents
      refine ⟨⟨hx.nodup id, hmem, ?_, fun s o => ?_⟩, ?_⟩
      · rw [hevents (hx.nodup id) hlive, hev]
        rfl
      · rw [hrep.queue_eq, Queues.mem_withoutAll]
        exact and_congr_right fun ho => howner ho
      · rw [IndexExact, hcl, hrep.queue_eq]
        refine (hx.erase id).congr fun c i => ?_
        rw [Queues.owns_withoutAll]
        refine and_congr_right fun hr => not_congr ?_
        rw [hmem]
        exact ⟨fun hc => hc ▸ hr, fun hr' => hr.unique h.book.holds.nodup hr'⟩

theorem HpEngine.indexExact_onCancel (h : EngineInv exact e) (hx : e.IndexExact)
    (hev : e.events = []) (id : Nat) : (e.onCancel id).IndexExact := by
  cases hget : e.book.store.get id with
  | none => exact (onCancel_cancelsClient h hx hev hget).2
  | some o =>
      have hset := onCancel_live h.book hget
      obtain ⟨ho, hid⟩ := h.book.mem_of_get hget
      rw [IndexExact, hset.clients, hset.book.queue_eq]
      refine (hx.drop fun c hr => hr.unique h.book.holds.nodup ?_).congr fun c i =>
        Queues.owns_without.symm
      exact ⟨o, Queues.mem_orders.mpr ⟨_, ho⟩, rfl, hid⟩

/-- The command that cancels an empty slot cancels by client. -/
theorem HpEngine.cancel_cancelsClient (h : EngineInv exact e) (hx : e.IndexExact) {id : Nat}
    (hget : e.book.store.get id = none) :
    CancelsClient e (e.onOrder (.cancel id)) id (e.clientToId.of id) := by
  have h0 : EngineInv exact { e with events := [] } := ⟨h.book, h.uncrossed⟩
  have hc := (onCancel_cancelsClient h0 hx rfl hget).1
  exact ⟨hc.nodup, hc.mem_iff, hc.events, hc.resting⟩

/-- A command keeps the index exact unless it fills an order of client zero. -/
theorem HpEngine.indexExact_onOrder_iff (h : EngineInv exact e) (hx : e.IndexExact)
    (cmd : HpCommand) : (e.onOrder cmd).IndexExact ↔ ¬ FillsClientZero e cmd := by
  have h0 : EngineInv exact { e with events := [] } := ⟨h.book, h.uncrossed⟩
  have hx0 : ({ e with events := [] } : HpEngine B A).IndexExact := hx
  cases cmd with
  | limit side priceTick qtyLot ts clientId =>
      exact indexExact_onLimit_iff h0 hx0 side priceTick qtyLot ts clientId
  | cancel id => exact iff_of_true (indexExact_onCancel h0 hx0 rfl id) not_false
  | market side qtyLot ts maxFills clientId =>
      exact indexExact_onMarket_iff h0 hx0 side qtyLot ts maxFills clientId

theorem HpEngine.indexExact_start (h : Represents exact e.book (fun _ => []) [])
    (hcl : e.clientToId = ∅) : e.IndexExact := by
  rw [IndexExact, hcl, h.queue_eq]
  exact .empty fun c i => by simp [Queues.Owns, Queues.orders]

/-- The index is exact as long as no order of client zero is filled. -/
theorem Reachable.indexExact (h : Reachable (fun e cmd => ¬ FillsClientZero e cmd) e) :
    e.IndexExact := by
  induction h with
  | new => exact HpEngine.indexExact_start (represents_new False) rfl
  | withCapacity => exact HpEngine.indexExact_start (represents_withCapacity False) rfl
  | step hreach hcmd ih =>
      have hinv : EngineInv False _ := hreach.inv False.elim
      exact (HpEngine.indexExact_onOrder_iff hinv ih _).mpr hcmd

/-- In every run without a fill of an order of client zero, the index is exact
and a cancel of an empty slot revokes the orders of that client and no other.
The next command makes the index inexact exactly if it fills such an order. -/
theorem run_index_exact (h : Reachable (fun e cmd => ¬ FillsClientZero e cmd) e) :
    e.IndexExact ∧
      (∀ id, e.book.store.get id = none →
        ∃ ids, CancelsClient e (e.onOrder (.cancel id)) id ids) ∧
      ∀ cmd, (e.onOrder cmd).IndexExact ↔ ¬ FillsClientZero e cmd := by
  have hinv : EngineInv False e := h.inv False.elim
  exact ⟨h.indexExact, fun id hget => ⟨_, HpEngine.cancel_cancelsClient hinv h.indexExact hget⟩,
    HpEngine.indexExact_onOrder_iff hinv h.indexExact⟩

end Engine

/-- A bid and an ask of client zero and two bids of client seven rest.  A cancel
for client seven revokes its bids, and a cancel for client zero the other two
orders. -/
theorem run_index_exact_cancel :
    let e := ((((HpEngine.new : BTreeEngine).onOrder (.limit .buy 100 5 1 0)).onOrder
      (.limit .buy 100 4 2 7)).onOrder (.limit .sell 101 6 3 0)).onOrder (.limit .buy 99 2 4 7)
    e.IndexExact ∧ (∃ ids, CancelsClient e (e.onOrder (.cancel 7)) 7 ids) ∧
      (e.onOrder (.cancel 7)).events = [.revoke 2 7 0, .revoke 4 7 0] ∧
      (e.onOrder (.cancel 0)).events = [.revoke 1 0 0, .revoke 3 0 0] := by
  intro e
  have h : Reachable (fun e cmd => ¬ FillsClientZero e cmd) e := by
    refine .step (.step (.step (.step .new ?_) ?_) ?_) ?_
    · decide +kernel
    · decide +kernel
    · decide +kernel
    · decide +kernel
  obtain ⟨hx, hcancel, -⟩ := run_index_exact h
  exact ⟨hx, hcancel 7 (by decide +kernel), by decide +kernel, by decide +kernel⟩

/-- An ask of client zero is filled and stays in the index.  Its slot goes to an
order of client nine, and a cancel for client zero revokes that order. -/
theorem stale_entry_cancels_other :
    let e := ((HpEngine.new : BTreeEngine).onOrder (.limit .sell 100 5 1 0)).onOrder
      (.limit .buy 100 5 2 7)
    let e' := (e.onOrder (.limit .buy 90 5 3 8)).onOrder (.limit .buy 90 5 4 9)
    e.book.queue.orders = [] ∧ ¬ e.IndexExact ∧
      e'.book.store.get 0 = none ∧ (∀ o ∈ e'.book.queue.orders, o.clientId ≠ 0) ∧
      (e'.book.store.get 1).map HpOrder.clientId = some 9 ∧
      (e'.onOrder (.cancel 0)).events = [.revoke 1 0 0] ∧
      (e'.onOrder (.cancel 0)).book.store.get 1 = none := by
  intro e e'
  have hnil : e.book.queue.orders = [] := by decide +kernel
  refine ⟨hnil, fun hx => ?_, by decide +kernel, by decide +kernel, by decide +kernel,
    by decide +kernel, by decide +kernel⟩
  obtain ⟨o, ho, -⟩ := (hx.mem_iff 0 1).mp (by decide +kernel)
  rw [hnil] at ho
  cases ho

end MatchCoreHp
