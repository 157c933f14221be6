import MatchRust.Hp.Totals

/-!
# What a cancel changes

A cancel of a live slot takes its order out of the store and out of its level.  Everything else
is as before: the other orders in the store and in their order, the other levels, and the best
ticks unless the level went with its last order.  With exact totals a level is known from the
orders of its tick, so all of this is read off the queues (`LevelRep.unique`).

A limit order that fills nothing and is cancelled again leaves the queues as they were, so the
depth and the best ticks are those from before.
-/

namespace MatchCoreHp

open PriceTime

variable {B A : Type} [LevelIndex B] [LevelIndex A]

/-! ## Levels of the same orders -/

/-- Exact levels of the same orders are the same. -/
theorem LevelRep.unique {level level' : Option Level} {os : List HpOrder}
    (h : LevelRep True level os) (h' : LevelRep True level' os) : level = level' := by
  cases level with
  | none => exact (h'.eq_none_iff.mpr h).symm
  | some l =>
      cases level' with
      | none => exact absurd (h'.eq_none_iff.mp rfl) h.1
      | some l' =>
          obtain ⟨-, hids, htotal⟩ := h
          obtain ⟨-, hids', htotal'⟩ := h'
          cases l
          cases l'
          simp only [Option.some.injEq, Level.mk.injEq]
          exact ⟨(htotal trivial).1.trans (htotal' trivial).1.symm, hids.trans hids'.symm⟩

section Books

variable {book book' : Book B A} {q : Queues} {working working' : List HpOrder} {o : HpOrder}

/-- Exact books of the same queues have the same levels and best ticks. -/
theorem Represents.level_congr (h : Represents True book q working)
    (h' : Represents True book' q working') (side : Side) (t : Int) :
    book'.level side t = book.level side t :=
  ((h'.side side).level_rep t).unique ((h.side side).level_rep t)

theorem Represents.best_congr (h : Represents True book q working)
    (h' : Represents True book' q working') (side : Side) : book'.best side = book.best side :=
  (h'.side side).best_eq.trans (h.side side).best_eq.symm

theorem atTick_without (id : Nat) (t : Int) (l : List HpOrder) :
    atTick t (without id l) = without id (atTick t l) := by
  rw [atTick, atTick, Grouping.group, Grouping.group, without, without, List.filter_comm]

/-- A level of which no order is taken out stays. -/
theorem Represents.level_without (h : Represents True book q []) (ho : o ∈ q o.side)
    (h' : Represents True book' (q.without o.id) []) {side : Side} {t : Int}
    (hne : ¬(side = o.side ∧ t = o.priceTick)) : book'.level side t = book.level side t := by
  refine ((h'.side side).level_rep t).unique ?_
  have hsame : atTick t (q.without o.id side) = atTick t (q side) := by
    rw [Queues.without, atTick_without]
    refine without_eq_self fun x hx hid => hne ?_
    obtain ⟨hx, hxt⟩ := mem_atTick.mp hx
    have hget := h.get hx
    rw [hid, h.get ho] at hget
    obtain rfl : o = x := Option.some.inj hget
    exact ⟨((h.side side).side_eq o hx).symm, hxt.symm⟩
  rw [hsame]
  exact (h.side side).level_rep t

/-- The lots of a level are those of one order exactly if there is no other. -/
theorem sumOpen_eq_openLot_iff {pre post : List HpOrder}
    (hothers : ∀ x ∈ pre ++ post, 0 < x.openLot) :
    sumOpen (pre ++ o :: post) = o.openLot ↔ pre ++ post = [] := by
  have hsum : sumOpen (pre ++ o :: post) = o.openLot + sumOpen (pre ++ post) := by
    simp only [sumOpen_append, sumOpen_cons]
    omega
  rw [hsum]
  constructor
  · intro heq
    refine List.eq_nil_iff_forall_not_mem.mpr fun x hx => ?_
    have hle := openLot_le_sumOpen hothers hx
    have hpos := hothers x hx
    omega
  · intro hnil
    rw [hnil]
    exact Int.add_zero _

/-- So are its slots. -/
theorem map_id_eq_singleton_iff {pre post : List HpOrder} :
    pre ++ post = [] ↔ (pre ++ o :: post).map HpOrder.id = [o.id] := by
  constructor
  · intro hnil
    obtain ⟨rfl, rfl⟩ := List.append_eq_nil_iff.mp hnil
    rfl
  · intro hsingle
    have hlen := congrArg List.length hsingle
    simp only [List.length_map, List.length_append, List.length_cons, List.length_nil] at hlen
    exact List.eq_nil_of_length_eq_zero (by rw [List.length_append]; omega)

/-- The level of the order that is taken out loses its lots, and goes if it has no others. -/
theorem Represents.level_own (h : Represents True book q []) (ho : o ∈ q o.side)
    (h' : Represents True book' (q.without o.id) []) :
    ∃ level, book.level o.side o.priceTick = some level ∧ o.id ∈ level.ids ∧
      (level.totalLot = o.openLot ↔ level.ids = [o.id]) ∧
      book'.level o.side o.priceTick =
        if level.totalLot = o.openLot then none
        else some ⟨level.totalLot - o.openLot, level.ids.filter fun x => x ≠ o.id⟩ := by
  obtain ⟨level, hl⟩ := h.level_some ho
  have hrep := (h.side o.side).level_rep o.priceTick
  have hrep' := (h'.side o.side).level_rep o.priceTick
  obtain ⟨pre, post, hos⟩ := List.append_of_mem (mem_atTick.mpr ⟨ho, rfl⟩)
  have hnd : ((pre ++ o :: post).map HpOrder.id).Nodup := by
    rw [← hos]
    exact (h.nodup o.side).sublist (List.filter_sublist.map HpOrder.id)
  have hpos : ∀ x ∈ pre ++ o :: post, 0 < x.openLot := fun x hx =>
    ((h.side o.side).live x (mem_atTick.mp (hos ▸ hx)).1).1
  rw [Queues.without, atTick_without, hos, without_middle hnd] at hrep'
  rw [hl, hos] at hrep
  obtain ⟨-, hids, htotal⟩ := hrep
  obtain ⟨htotal, hfit⟩ := htotal trivial
  have hothers : ∀ x ∈ pre ++ post, 0 < x.openLot := fun x hx =>
    hpos x (((List.sublist_cons_self o post).append_left pre).subset hx)
  have hempty : level.totalLot = o.openLot ↔ pre ++ post = [] := by
    rw [htotal]
    exact sumOpen_eq_openLot_iff hothers
  have hfilter : (level.ids.filter fun x => x ≠ o.id) = (pre ++ post).map HpOrder.id := by
    rw [hids, ← without_middle hnd, without, List.filter_map]
    rfl
  refine ⟨level, hl, ?_, hempty.trans ?_, hrep'.unique ?_⟩
  · rw [hids]
    exact List.mem_map_of_mem (by simp)
  · rw [hids]
    exact map_id_eq_singleton_iff
  · split
    next heq => exact hempty.mp heq
    next hne =>
      refine ⟨fun hnil => hne (hempty.mpr hnil), hfilter, fun _ => ?_⟩
      have hopen := hpos o (by simp)
      have hnonneg := sumOpen_nonneg hothers
      simp only [sumOpen_append, sumOpen_cons] at htotal hfit hnonneg ⊢
      omega

/-- The slots but the one that is taken out. -/
theorem Represents.store_without {id : Nat} (h : Represents True book q [])
    (h' : Represents True book' (q.without id) []) (i : Nat) :
    book'.store.get i = if i = id then none else book.store.get i := by
  refine Option.ext fun x => ?_
  rw [h'.holds.get_iff, List.nil_append, Queues.mem_orders]
  split
  next heq =>
    subst heq
    refine iff_of_false ?_ nofun
    rintro ⟨⟨side, hx⟩, hid⟩
    exact (Queues.mem_without.mp hx).2 hid
  next hne =>
    rw [h.holds.get_iff, List.nil_append, Queues.mem_orders]
    refine and_congr_left fun hid => exists_congr fun side => ?_
    rw [Queues.mem_without]
    exact and_iff_left fun heq => hne (hid.symm.trans heq)

/-! ## The best tick -/

/-- The best tick stays while its level does. -/
theorem Represents.best_without (h : Represents True book q []) (ho : o ∈ q o.side)
    (h' : Represents True book' (q.without o.id) []) {side : Side}
    (hkeep : ¬(side = o.side ∧ book'.level o.side o.priceTick = none)) :
    book'.best side = book.best side := by
  have hsome : ∀ t, (book'.level side t).isSome ↔ (book.level side t).isSome := by
    intro t
    by_cases hown : side = o.side ∧ t = o.priceTick
    · obtain ⟨rfl, rfl⟩ := hown
      obtain ⟨level, hl⟩ := h.level_some ho
      rw [hl, Option.isSome_iff_ne_none]
      exact iff_of_true (fun hnone => hkeep ⟨rfl, hnone⟩) rfl
    · rw [h.level_without ho h' hown]
  refine Option.ext fun t => ?_
  rw [h'.best_iff, h.best_iff]
  simp only [hsome]

/-! ## Lines of the depth -/

variable [LawfulLevelIndex .buy B] [LawfulLevelIndex .sell A] {side : Side}

/-- All levels of a side with their totals, best first. -/
def Book.lines (book : Book B A) (side : Side) : List (Int × Int) :=
  (book.levels side).map fun p => (p.1, p.2.totalLot)

theorem Book.depth_lines (book : Book B A) (side : Side) (n : Nat) :
    book.depth side n = (book.lines side).take n := by
  rw [Book.depth_eq, Book.lines, List.map_take]

theorem Book.mem_lines {t x : Int} :
    (t, x) ∈ book.lines side ↔ ∃ level, book.level side t = some level ∧ level.totalLot = x := by
  simp only [Book.lines, List.mem_map, Prod.mk.injEq]
  constructor
  · rintro ⟨p, hp, rfl, rfl⟩
    exact ⟨p.2, Book.mem_levels.mp hp, rfl⟩
  · rintro ⟨level, hl, rfl⟩
    exact ⟨(t, level), Book.mem_levels.mpr hl, rfl, rfl⟩

theorem Book.lines_sorted (book : Book B A) (side : Side) :
    (book.lines side).Pairwise fun a b => side.better a.1 b.1 :=
  List.pairwise_map.mpr (book.levels_sorted side)

omit [LevelIndex B] [LevelIndex A] [LawfulLevelIndex .buy B] [LawfulLevelIndex .sell A] in
theorem nodup_of_sorted {l : List (Int × Int)}
    (h : l.Pairwise fun a b => side.better a.1 b.1) : (l.map Prod.fst).Nodup := by
  refine List.pairwise_map.mpr (h.imp fun {a b} hab heq => ?_)
  exact side.better_irrefl b.1 (heq ▸ hab)

/-- A line after lots were taken off a tick.  A level of these lots alone is gone. -/
def cutLine (tick lot : Int) (line : Int × Int) : Option (Int × Int) :=
  if line.1 = tick then
    if line.2 = lot then none else some (line.1, line.2 - lot)
  else some line

theorem cutLine_fst {tick lot : Int} {a b : Int × Int} (h : cutLine tick lot a = some b) :
    b.1 = a.1 := by
  unfold cutLine at h
  split at h
  next =>
    split at h
    next => cases h
    next => cases h; rfl
  next => cases h; rfl

/-- The lines of the side of the order that is taken out. -/
theorem Represents.lines_own (h : Represents True book q []) (ho : o ∈ q o.side)
    (h' : Represents True book' (q.without o.id) []) :
    book'.lines o.side = (book.lines o.side).filterMap (cutLine o.priceTick o.openLot) := by
  have hsorted : ((book.lines o.side).filterMap (cutLine o.priceTick o.openLot)).Pairwise
      fun a b => o.side.better a.1 b.1 := by
    refine (book.lines_sorted o.side).filterMap _ fun a b hab a' ha' b' hb' => ?_
    rw [cutLine_fst ha', cutLine_fst hb']
    exact hab
  refine List.Perm.eq_of_pairwise (fun a b _ _ hab hba => absurd hba (Side.better_asymm hab))
    (book'.lines_sorted o.side) hsorted ?_
  refine (List.perm_ext_iff_of_nodup (nodup_of_sorted (book'.lines_sorted o.side)).of_map
    (nodup_of_sorted hsorted).of_map).mpr fun line => ?_
  obtain ⟨t, x⟩ := line
  obtain ⟨level, hl, -, -, hown⟩ := h.level_own ho h'
  rw [List.mem_filterMap]
  by_cases ht : t = o.priceTick
  · subst ht
    rw [Book.mem_lines, hown]
    constructor
    · rintro ⟨level', hl', rfl⟩
      split at hl'
      next => cases hl'
      next hne =>
        cases hl'
        refine ⟨(o.priceTick, level.totalLot), Book.mem_lines.mpr ⟨level, hl, rfl⟩, ?_⟩
        simp [cutLine, hne]
    · rintro ⟨⟨u, y⟩, ha, hcut⟩
      obtain rfl : o.priceTick = u := cutLine_fst hcut
      obtain ⟨level', hl', rfl⟩ := Book.mem_lines.mp ha
      obtain rfl : level = level' := Option.some.inj (hl.symm.trans hl')
      rw [cutLine, if_pos rfl] at hcut
      split at hcut
      next => cases hcut
      next hne =>
        cases hcut
        rw [if_neg hne]
        exact ⟨_, rfl, rfl⟩
  · have hsame : book'.level o.side t = book.level o.side t :=
      h.level_without ho h' fun heq => ht heq.2
    rw [Book.mem_lines, hsame, ← Book.mem_lines]
    constructor
    · exact fun hline => ⟨(t, x), hline, if_neg ht⟩
    · rintro ⟨a, ha, hcut⟩
      have hfst : t = a.1 := cutLine_fst hcut
      rw [cutLine, if_neg (hfst ▸ ht)] at hcut
      cases hcut
      exact ha

/-- The lines of the other side. -/
theorem Represents.lines_opp (h : Represents True book q []) (ho : o ∈ q o.side)
    (h' : Represents True book' (q.without o.id) []) (hside : side ≠ o.side) :
    book'.lines side = book.lines side := by
  have hlevels : book'.levels side = book.levels side :=
    Book.levels_congr fun t => h.level_without ho h' fun heq => hside heq.1
  rw [Book.lines, Book.lines, hlevels]

omit [LevelIndex B] [LevelIndex A] [LawfulLevelIndex .buy B] [LawfulLevelIndex .sell A] in
/-- If at most one element goes, one more is enough to know the first ones. -/
theorem take_filterMap {α β : Type} {f : α → Option β} {l : List α}
    (h : l.countP (fun a => (f a).isNone) ≤ 1) (n : Nat) :
    (l.filterMap f).take n = ((l.take (n + 1)).filterMap f).take n := by
  rcases Nat.lt_or_ge (n + 1) l.length with hlt | hle
  · have hcount := List.length_eq_countP_add_countP (fun a => (f a).isSome) (l := l.take (n + 1))
    have hnone : (l.take (n + 1)).countP (fun a => ¬(f a).isSome) ≤ 1 := by
      refine Nat.le_trans ((List.take_sublist _ _).countP_le) ?_
      refine Nat.le_trans (List.countP_mono_left fun a _ ha => ?_) h
      simpa using ha
    have hlen : n ≤ ((l.take (n + 1)).filterMap f).length := by
      rw [List.length_filterMap_eq_countP]
      rw [List.length_take] at hcount
      omega
    conv_lhs => rw [← List.take_append_drop (n + 1) l, List.filterMap_append]
    exact List.take_append_of_le_length hlen
  · rw [List.take_of_length_le hle]

/-- The depth of the side of the order that is taken out. -/
theorem Represents.depth_own (h : Represents True book q []) (ho : o ∈ q o.side)
    (h' : Represents True book' (q.without o.id) []) (n : Nat) :
    book'.depth o.side n =
      ((book.depth o.side (n + 1)).filterMap (cutLine o.priceTick o.openLot)).take n := by
  rw [Book.depth_lines, Book.depth_lines, h.lines_own ho h']
  refine take_filterMap ?_ n
  have hcount := List.nodup_iff_count_le_one.mp (nodup_of_sorted (book.lines_sorted o.side))
    o.priceTick
  refine Nat.le_trans ?_ hcount
  rw [List.count, List.countP_map]
  refine List.countP_mono_left fun a _ ha => ?_
  unfold cutLine at ha
  split at ha
  next heq => simpa using heq
  next => cases ha

theorem Represents.depth_congr (h : Represents True book q working)
    (h' : Represents True book' q working') (side : Side) (n : Nat) :
    book'.depth side n = book.depth side n := by
  rw [Book.depth_eq, Book.depth_eq, Book.levels_congr (h.level_congr h' side)]

end Books

/-! ## A cancel -/

section Cancel

variable [LawfulLevelIndex .buy B] [LawfulLevelIndex .sell A] {e : HpEngine B A}

/-- What a cancel of a live slot does, and what it leaves as it was. -/
structure Cancelled (e e' : HpEngine B A) (id : Nat) (o : HpOrder) : Prop where
  /-- One order is revoked. -/
  events : e'.events = [.revoke id o.clientId 0]
  /-- The slot is free, and the others have the orders they had. -/
  store : ∀ i, e'.book.store.get i = if i = id then none else e.book.store.get i
  /-- The order is out of its queue, and the others stand as they stood. -/
  queue : ∀ side, e'.book.queue side = (e.book.queue side).filter fun x => x.id ≠ id
  /-- The other levels stay. -/
  level : ∀ side t, ¬(side = o.side ∧ t = o.priceTick) →
    e'.book.level side t = e.book.level side t
  /-- The level of the order loses its lots, and goes if it has no other order. -/
  own : ∃ level, e.book.level o.side o.priceTick = some level ∧ id ∈ level.ids ∧
    (level.totalLot = o.openLot ↔ level.ids = [id]) ∧
    e'.book.level o.side o.priceTick =
      if level.totalLot = o.openLot then none
      else some ⟨level.totalLot - o.openLot, level.ids.filter fun x => x ≠ id⟩
  /-- The depth of the other side stays. -/
  depth_opp : ∀ n, e'.book.depth o.side.opp n = e.book.depth o.side.opp n
  /-- The depth of its own side stays but for the line of the level. -/
  depth_own : ∀ n, e'.book.depth o.side n =
    ((e.book.depth o.side (n + 1)).filterMap (cutLine o.priceTick o.openLot)).take n
  /-- The best ticks stay unless the level went. -/
  best : ∀ side, ¬(side = o.side ∧ e'.book.level o.side o.priceTick = none) →
    e'.book.best side = e.book.best side

theorem EngineInv.cancelled (h : EngineInv True e) {id : Nat} {o : HpOrder}
    (hget : e.book.store.get id = some o) : Cancelled e (e.onOrder (.cancel id)) id o := by
  have h0 : Represents True { e with events := [] }.book e.book.queue [] := h.book
  have hset := HpEngine.onCancel_live h0 hget
  obtain ⟨ho, rfl⟩ := h.book.mem_of_get hget
  have h' := hset.book
  exact
    { events := hset.events
      store := h.book.store_without h'
      queue := congrFun h'.queue_eq
      level := fun _ _ hne => h.book.level_without ho h' hne
      own := h.book.level_own ho h'
      depth_opp := by
        intro n
        rw [Book.depth_lines, Book.depth_lines]
        exact congrArg (List.take n) (h.book.lines_opp ho h' o.side.opp_ne)
      depth_own := h.book.depth_own ho h'
      best := fun _ hkeep => h.book.best_without ho h' hkeep }

/-! ## A limit order and its cancel -/

theorem without_restIn {side : Side} {o : HpOrder} {l : List HpOrder}
    (h : ∀ x ∈ l, x.id ≠ o.id) : without o.id (restIn side o l) = l := by
  induction l with
  | nil => simp [without]
  | cons b l ih =>
      have htail := ih fun x hx => h x (List.mem_cons_of_mem b hx)
      have hb := h b (List.mem_cons_self ..)
      have hself := without_eq_self h
      rw [without] at htail hself ⊢
      by_cases hbetter : side.better o.priceTick b.priceTick
      · rw [restIn_front hbetter, List.filter_cons_of_neg (by simp), hself]
      · rw [restIn_behind hbetter, List.filter_cons_of_pos (by simpa using hb), htail]

/-- The book looks the same: the queues, the best ticks and the depth. -/
structure SameView (book book' : Book B A) : Prop where
  queue : book'.queue = book.queue
  best : ∀ side, book'.best side = book.best side
  depth : ∀ side n, book'.depth side n = book.depth side n

/-- A limit order that fills nothing rests, and the queue has one order more. -/
theorem EngineInv.onLimit_rests (h : EngineInv True e) {side : Side} {priceTick qtyLot : Int}
    {ts clientId : Nat} (hpos : 0 < qtyLot)
    (hfar : ∀ t, e.book.best side.opp = some t → HpEngine.beyond side t (some priceTick) = true)
    (hfit : (e.onLimit side priceTick qtyLot ts clientId).book.LevelSumsFit) :
    HpEngine.Settled True
      (e.book.queue.set side
        (restIn side (e.taker side priceTick qtyLot ts clientId) (e.book.queue side)))
      (e.events ++ [.rest e.book.store.nextId clientId side priceTick qtyLot])
      (e.clientToId.push clientId e.book.store.nextId)
      (e.onLimit side priceTick qtyLot ts clientId) := by
  have hsw : takerSweep e.book.queue side (some priceTick) none qtyLot =
      ⟨[], e.book.queue side.opp, qtyLot⟩ := by
    refine sweep_blocked makers fun m hm => ?_
    have hbest : e.book.best side.opp = some m.priceTick := by
      rw [(h.book.side side.opp).best_eq, hm]
      rfl
    simp [crosses, hfar _ hbest]
  have hweak : HpEngine.Settled False _ _ _ (e.onLimit side priceTick qtyLot ts clientId) :=
    HpEngine.onLimit_settled h.book.weaken hpos rfl rfl False.elim
  have hset : HpEngine.Settled True _ _ _ (e.onLimit side priceTick qtyLot ts clientId) :=
    HpEngine.onLimit_settled h.book hpos rfl rfl fun _ => hweak.book.fits_of_levelSumsFit hfit
  rw [hsw, leftover, if_pos hpos, Queues.settle_single, Queues.set_opp_self,
    @Queues.set_eq_self e.book.queue side.opp _ rfl] at hset
  exact ⟨hset.book, hset.events.trans (by rw [List.map_nil, List.append_nil]; rfl), hset.clients⟩

/-- A limit order that filled nothing is cancelled again. -/
theorem EngineInv.restored (h : EngineInv True e) {side : Side} {priceTick qtyLot : Int}
    {ts clientId : Nat} (hpos : 0 < qtyLot)
    (hfar : ∀ t, e.book.best side.opp = some t → HpEngine.beyond side t (some priceTick) = true)
    (hfit : SumsFit e (.limit side priceTick qtyLot ts clientId)) :
    (e.onOrder (.limit side priceTick qtyLot ts clientId)).events =
        [.rest e.book.store.nextId clientId side priceTick qtyLot] ∧
      SameView e.book ((e.onOrder (.limit side priceTick qtyLot ts clientId)).onOrder
        (.cancel e.book.store.nextId)).book := by
  have h0 : EngineInv True { e with events := [] } := ⟨h.book, h.uncrossed⟩
  have hset := h0.onLimit_rests hpos hfar hfit
  refine ⟨hset.events, ?_⟩
  obtain ⟨e', he'⟩ : ∃ e', e' = e.onOrder (.limit side priceTick qtyLot ts clientId) := ⟨_, rfl⟩
  obtain ⟨o, ho⟩ : ∃ o, o = e.taker side priceTick qtyLot ts clientId := ⟨_, rfl⟩
  have hrep : Represents True e'.book
      (e.book.queue.set side (restIn side o (e.book.queue side))) [] := by
    rw [he', ho]
    exact hset.book
  have hfresh : ∀ s, ∀ x ∈ e.book.queue s, x.id ≠ o.id := by
    intro s x hx heq
    have hget := h.book.get hx
    rw [heq, ho, show (e.taker side priceTick qtyLot ts clientId).id = e.book.store.nextId from rfl,
      e.book.store.get_nextId] at hget
    cases hget
  have hmem : o ∈ (e.book.queue.set side (restIn side o (e.book.queue side))) side := by
    rw [Queues.set_self]
    exact mem_restIn.mpr (.inl rfl)
  have hback : (e.book.queue.set side (restIn side o (e.book.queue side))).without o.id =
      e.book.queue := by
    funext s
    rw [Queues.without]
    by_cases hs : s = side
    · subst hs
      rw [Queues.set_self, without_restIn (hfresh s)]
    · rw [Queues.set_ne _ hs, without_eq_self (hfresh s)]
  have hrep0 : Represents True { e' with events := [] }.book _ [] := hrep
  have hcancel := (HpEngine.onCancel_live hrep0 (hrep.get hmem)).book
  rw [hback] at hcancel
  have hview : SameView e.book (e'.onOrder (.cancel o.id)).book :=
    ⟨hcancel.queue_eq, h.book.best_congr hcancel, h.book.depth_congr hcancel⟩
  rw [he', ho] at hview
  exact hview

/-- In every state an engine reaches with sums that fit, a cancel of a live slot revokes its order
and changes nothing else.  And a limit order that fills nothing because the best tick of the other
side is beyond its limit can be taken back: its cancel restores the queues, the best ticks and the
depth. -/
theorem cancel_frame (h : Reachable SumsFit e) :
    (∀ id o, e.book.store.get id = some o → Cancelled e (e.onOrder (.cancel id)) id o) ∧
      ∀ side priceTick qtyLot ts clientId, 0 < qtyLot →
        (∀ t, e.book.best side.opp = some t → HpEngine.beyond side t (some priceTick) = true) →
        SumsFit e (.limit side priceTick qtyLot ts clientId) →
        (e.onOrder (.limit side priceTick qtyLot ts clientId)).events =
            [.rest e.book.store.nextId clientId side priceTick qtyLot] ∧
          SameView e.book ((e.onOrder (.limit side priceTick qtyLot ts clientId)).onOrder
            (.cancel e.book.store.nextId)).book := by
  have hinv : EngineInv True e := h.inv fun _ _ _ hcmd => hcmd
  refine ⟨fun id o hget => hinv.cancelled hget, ?_⟩
  intro side priceTick qtyLot ts clientId hpos hfar hfit
  exact hinv.restored hpos hfar hfit

end Cancel

/-- Of two bids at one tick the first is cancelled, and a bid at a better tick is taken back. -/
theorem cancel_frame_two :
    let e := ((HpEngine.new : BTreeEngine).onOrder (.limit .buy 100 5 1 7)).onOrder
      (.limit .buy 100 4 2 8)
    (e.onOrder (.cancel 1)).events = [.revoke 1 7 0] ∧
      (e.onOrder (.cancel 1)).book.depth .buy 1 = [(100, 4)] ∧
      (e.onOrder (.limit .buy 101 3 3 9)).book.depth .buy 2 = [(101, 3), (100, 9)] ∧
      ((e.onOrder (.limit .buy 101 3 3 9)).onOrder (.cancel 3)).book.depth .buy 2 =
        [(100, 9)] := by
  intro e
  have hreach : Reachable SumsFit e := by
    refine .step (.step .new ?_) ?_
    · decide +kernel
    · decide +kernel
  obtain ⟨hcancel, hrestore⟩ := cancel_frame hreach
  have hone := hcancel 1 ⟨1, .buy, 100, 5, 5, 1, 7⟩ (by decide +kernel)
  have hfar : ∀ t, e.book.best .sell = some t → HpEngine.beyond .buy t (some 101) = true := by
    have hnone : e.book.best .sell = none := by decide +kernel
    simp [hnone]
  have htwo := (hrestore .buy 101 3 3 9 (by decide) hfar (by decide +kernel)).2
  rw [show e.book.store.nextId = 3 by decide +kernel] at htwo
  refine ⟨hone.events, ?_, by decide +kernel, ?_⟩
  · rw [hone.depth_own 1]
    decide +kernel
  · rw [htwo.depth .buy 2]
    decide +kernel

end MatchCoreHp
