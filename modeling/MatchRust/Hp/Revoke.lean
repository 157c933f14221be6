import MatchRust.Hp.Adapter
import MatchRust.Hp.ClientIndex

/-!
# Revoke requests on the fixed-point path

A new order carries its number as the client, and a revoke request becomes a
cancel of its number.  The cancel looks for a slot of this number first, and
slots are numbered from one.  So a revoke request for an order with a small
number takes out whatever order is in that slot (`revoke_hits_slot`).

With distinct order numbers, a revoke request takes out the order of its number
and no other exactly if the slot of this number is empty or holds that order
(`revoke_own_iff`).
-/

namespace MatchCoreHp

open MatchProtocol PriceTime

/-! ## Clients of resting orders -/

/-- The clients of the resting orders. -/
def Queues.clients (q : Queues) : List Nat := q.orders.map HpOrder.clientId

namespace Queues

variable {q : Queues}

theorem clients_set_perm (q : Queues) (side : Side) (l : List HpOrder) :
    (q.set side l).clients.Perm (l.map HpOrder.clientId ++ (q side.opp).map HpOrder.clientId) := by
  rw [← List.map_append]
  exact (orders_set_perm q side l).map _

theorem perm_foldr_restIn (side : Side) (left l : List HpOrder) :
    (left.foldr (restIn side) l).Perm (left ++ l) := by
  induction left with
  | nil => exact List.Perm.refl l
  | cons o left ih => exact (perm_restIn _).trans (ih.cons o)

/-- A taker adds at most its own client. -/
theorem clients_settle (q : Queues) (side : Side) (limitTick : Option Int) (maxFills : Option Nat)
    (qtyLot : Int) (left : List HpOrder) :
    (q.settle side (takerSweep q side limitTick maxFills qtyLot) left).clients.Subperm
      (left.map HpOrder.clientId ++ q.clients) := by
  obtain ⟨sw, hsw⟩ : ∃ sw, sw = takerSweep q side limitTick maxFills qtyLot := ⟨_, rfl⟩
  have hbook : (sw.book.map HpOrder.clientId).Sublist ((q side.opp).map HpOrder.clientId) := by
    rw [hsw]
    exact (book_keys makers _ HpOrder.clientId (fun _ _ => rfl) _ _ _).sublist
  have hown := (perm_foldr_restIn side left (q side)).map HpOrder.clientId
  rw [List.map_append] at hown
  have hall : q.clients.Perm
      ((q side).map HpOrder.clientId ++ (q side.opp).map HpOrder.clientId) := by
    rw [← List.map_append]
    exact (orders_perm q side).map _
  have hset := clients_set_perm (q.set side.opp sw.book) side (left.foldr (restIn side) (q side))
  rw [set_self] at hset
  rw [← hsw]
  refine hset.subperm.trans ?_
  refine List.Subperm.trans ?_ ((hall.append_left (left.map HpOrder.clientId)).symm.subperm)
  rw [← List.append_assoc]
  exact (hown.append_right _).subperm.trans ((List.Sublist.refl _).append hbook).subperm

theorem clients_without (q : Queues) (id : Nat) : (q.without id).clients.Sublist q.clients := by
  refine List.Sublist.map _ ?_
  exact List.filter_sublist.append List.filter_sublist

theorem clients_withoutAll (q : Queues) (ids : List Nat) :
    (q.withoutAll ids).clients.Sublist q.clients := by
  induction ids generalizing q with
  | nil => exact List.Sublist.refl _
  | cons id ids ih => exact (ih _).trans (q.clients_without id)

end Queues

theorem clients_leftover (o : HpOrder) (sw : Sweep HpOrder Int) :
    ((leftover o sw).map HpOrder.clientId).Sublist [o.clientId] := by
  rw [leftover]
  split
  next => exact List.Sublist.refl _
  next => exact List.nil_sublist _

section Engine

variable {B A : Type} [LevelIndex B] [LevelIndex A]
  [LawfulLevelIndex .buy B] [LawfulLevelIndex .sell A] {exact : Prop} {e : HpEngine B A}

/-- The client whose order the command may leave in the book. -/
def HpCommand.newClient : HpCommand → List Nat
  | .limit _ _ _ _ clientId => [clientId]
  | .cancel _ => []
  | .market .. => []

theorem EngineInv.clients_onLimit (h : EngineInv exact e) (side : Side) (priceTick qtyLot : Int)
    (ts clientId : Nat) :
    (e.onLimit side priceTick qtyLot ts clientId).book.queue.clients.Subperm
      ([clientId] ++ e.book.queue.clients) := by
  by_cases hpos : 0 < qtyLot
  · have hset : HpEngine.Settled False _ _ _ (e.onLimit side priceTick qtyLot ts clientId) :=
      HpEngine.onLimit_settled h.book.weaken hpos rfl rfl False.elim
    rw [hset.book.queue_eq]
    refine (Queues.clients_settle ..).trans (List.Sublist.subperm ?_)
    exact (clients_leftover (e.taker side priceTick qtyLot ts clientId) _).append
      (List.Sublist.refl _)
  · rw [HpEngine.onLimit, if_pos (not_lt.mp hpos)]
    exact (List.sublist_append_right _ _).subperm

theorem EngineInv.clients_onMarket (h : EngineInv exact e) (side : Side) (qtyLot : Int) (ts : Nat)
    (maxFills : Option Nat) (clientId : Nat) :
    (e.onMarket side qtyLot ts maxFills clientId).book.queue.clients.Subperm
      e.book.queue.clients := by
  by_cases hpos : 0 < qtyLot
  · have hset : HpEngine.Settled exact _ _ _ (e.onMarket side qtyLot ts maxFills clientId) :=
      HpEngine.onMarket_settled h.book hpos rfl rfl
    rw [hset.book.queue_eq]
    exact Queues.clients_settle ..
  · rw [HpEngine.onMarket, if_pos (not_lt.mp hpos)]

theorem EngineInv.clients_onCancel (h : EngineInv exact e) (id : Nat) :
    (e.onCancel id).book.queue.clients.Subperm e.book.queue.clients := by
  cases hget : e.book.store.get id with
  | some o =>
      rw [(HpEngine.onCancel_live h.book hget).book.queue_eq]
      exact (Queues.clients_without ..).subperm
  | none =>
      cases hlist : e.clientToId[id]? with
      | none => rw [HpEngine.onCancel_none hget hlist]
      | some list =>
          rw [(HpEngine.onCancel_client h.book hget hlist).1.queue_eq]
          exact (Queues.clients_withoutAll ..).subperm

/-- A command adds at most its own client to those of the resting orders. -/
theorem EngineInv.clients_onOrder (h : EngineInv exact e) (cmd : HpCommand) :
    (e.onOrder cmd).book.queue.clients.Subperm (cmd.newClient ++ e.book.queue.clients) := by
  have h0 : EngineInv exact { e with events := [] } := ⟨h.book, h.uncrossed⟩
  cases cmd with
  | limit side priceTick qtyLot ts clientId => exact h0.clients_onLimit ..
  | cancel id => exact h0.clients_onCancel id
  | market side qtyLot ts maxFills clientId => exact h0.clients_onMarket ..

/-- No order of client zero is filled if none rests. -/
theorem not_fillsClientZero (h : 0 ∉ e.book.queue.clients) (cmd : HpCommand) :
    ¬ FillsClientZero e cmd := by
  have hzero : ∀ (side : Side) limitTick maxFills qtyLot,
      ¬ FillsZero (e.book.queue side.opp) side limitTick maxFills qtyLot := by
    rintro side limitTick maxFills qtyLot ⟨n, h0, -⟩
    refine h (List.mem_map.mpr ⟨_, Queues.mem_orders.mpr ⟨side.opp, ?_⟩, h0⟩)
    exact List.get_mem _ n
  cases cmd with
  | limit side priceTick qtyLot ts clientId => exact hzero side (some priceTick) none qtyLot
  | cancel id => exact not_false
  | market side qtyLot ts maxFills clientId => exact hzero side none maxFills qtyLot

/-! ## Runs of a worker -/

/-- The number of a new order. -/
def newNumber (o : BbOrder) : Option Nat :=
  if o.orderStatus = orderStatusRevoke then none else (parseId o.trustOrderNo).toOption

/-- The numbers of the new orders, those of revoke requests left out. -/
def newNumbers (os : List BbOrder) : List Nat := os.filterMap newNumber

/-- The resting orders have distinct clients among these numbers. -/
structure Numbered (used : List Nat) (e : HpEngine B A) : Prop where
  inv : EngineInv False e
  index : e.IndexExact
  clients : e.book.queue.clients.Subperm used

theorem Numbered.mono {used used' : List Nat} (h : Numbered used e) (hu : used.Subperm used') :
    Numbered used' e :=
  ⟨h.inv, h.index, h.clients.trans hu⟩

theorem Numbered.nodup {used : List Nat} (h : Numbered used e) (hnd : used.Nodup) :
    e.book.queue.clients.Nodup := by
  obtain ⟨l, hperm, hsub⟩ := h.clients
  exact hperm.nodup_iff.mp (hsub.nodup hnd)

theorem newClient_subperm {display : BigDecimal → String} {scale : SymbolScale} {o : BbOrder}
    {cmd : HpCommand} (h : Converts display scale o cmd) :
    cmd.newClient.Subperm (newNumber o).toList := by
  cases h with
  | cancel hstatus hid => exact List.nil_subperm
  | limit hstatus hform hside hts hid hqty hprice =>
      rw [newNumber, if_neg hstatus, hid]
      exact List.Subperm.refl _
  | market hstatus hform hside hts hid hqty hgear hpos => exact List.nil_subperm

/-- One round of a worker. -/
theorem Numbered.recv {used : List Nat} (h : Numbered used e) (hzero : 0 ∉ used)
    (display : BigDecimal → String) (scale : SymbolScale) (o : BbOrder) :
    Numbered ((newNumber o).toList ++ used) (Worker.recv display scale e o) := by
  unfold Worker.recv
  split
  next => exact h.mono (List.sublist_append_right _ _).subperm
  next cmd hcmd =>
    have hfill := not_fillsClientZero (fun h0 => hzero (h.clients.subset h0)) cmd
    refine ⟨h.inv.onOrder cmd False.elim,
      (HpEngine.indexExact_onOrder_iff h.inv h.index cmd).mpr hfill, ?_⟩
    refine (h.inv.clients_onOrder cmd).trans ?_
    have hnew := newClient_subperm (converts_of_fromBbOrder hcmd)
    exact ((List.subperm_append_right _).mpr hnew).trans
      ((List.subperm_append_left _).mpr h.clients)

/-- A run of a worker. -/
theorem Numbered.run {used : List Nat} (h : Numbered used e) (display : BigDecimal → String)
    (scale : SymbolScale) (os : List BbOrder) (hzero : 0 ∉ newNumbers os ++ used) :
    Numbered (newNumbers os ++ used) (os.foldl (Worker.recv display scale) e) := by
  induction os generalizing e used with
  | nil => exact h
  | cons o os ih =>
      have hperm : (newNumbers os ++ ((newNumber o).toList ++ used)).Perm
          (newNumbers (o :: os) ++ used) := by
        rw [← List.append_assoc]
        refine List.Perm.append_right used ?_
        cases hn : newNumber o with
        | none => simp [newNumbers, hn]
        | some n => simp [newNumbers, hn]
      have hzero' : 0 ∉ newNumbers os ++ ((newNumber o).toList ++ used) :=
        fun h0 => hzero (hperm.subset h0)
      have hused : 0 ∉ used := fun h0 => hzero (List.mem_append_right _ h0)
      exact (ih (h.recv hused display scale o) hzero').mono hperm.subperm

theorem numbered_start (h : e = HpEngine.new ∨ e = HpEngine.withCapacity) : Numbered [] e := by
  have hstart : Represents False e.book (fun _ => []) [] ∧ e.clientToId = ∅ := by
    rcases h with rfl | rfl
    · exact ⟨represents_new False, rfl⟩
    · exact ⟨represents_withCapacity False, rfl⟩
  have hqueue := hstart.1.queue_eq
  refine ⟨.of_represents hstart.1 nofun, HpEngine.indexExact_start hstart.1 hstart.2, ?_⟩
  rw [hqueue]
  exact List.Subperm.refl []

/-! ## Revoke requests -/

/-- A revoke request for this number took out the resting orders of this number
and no other. -/
structure RevokesOwn (number : Nat) (e e' : HpEngine B A) : Prop where
  /-- Every order it revokes was submitted under the number. -/
  only : ∀ ev ∈ e'.events, ∃ o ∈ e.book.queue.orders, o.clientId = number ∧
    ev = .revoke o.id number 0
  /-- Orders of other numbers stay. -/
  kept : ∀ o ∈ e.book.queue.orders, o.clientId ≠ number → o ∈ e'.book.queue.orders
  /-- A resting order of the number is revoked. -/
  own : ∀ o ∈ e.book.queue.orders, o.clientId = number →
    o ∉ e'.book.queue.orders ∧ .revoke o.id number 0 ∈ e'.events

/-- A cancel by client revokes the orders of the number. -/
theorem CancelsClient.revokesOwn {e' : HpEngine B A} {number : Nat} {ids : List Nat}
    (h : CancelsClient e e' number ids) : RevokesOwn number e e' := by
  have hrest : ∀ o, o ∈ e'.book.queue.orders ↔ o ∈ e.book.queue.orders ∧ o.clientId ≠ number := by
    intro o
    simp only [Queues.mem_orders, h.resting, exists_and_right]
  refine ⟨fun ev hev => ?_, fun o ho hne => (hrest o).mpr ⟨ho, hne⟩, fun o ho heq => ⟨?_, ?_⟩⟩
  · rw [h.events] at hev
    obtain ⟨i, hi, rfl⟩ := List.mem_map.mp hev
    obtain ⟨o, ho, hc, rfl⟩ := (h.mem_iff i).mp hi
    exact ⟨o, ho, hc, rfl⟩
  · exact fun ho' => ((hrest o).mp ho').2 heq
  · rw [h.events]
    exact List.mem_map.mpr ⟨o.id, (h.mem_iff o.id).mpr ⟨o, ho, heq, rfl⟩, rfl⟩

/-- A cancel of a live slot revokes the order of the number exactly if it is in
the slot. -/
theorem Numbered.revokesOwn_live {used : List Nat} (h : Numbered used e) (hnd : used.Nodup)
    {number : Nat} {o : HpOrder} (hget : e.book.store.get number = some o) :
    RevokesOwn number e (e.onOrder (.cancel number)) ↔ o.clientId = number := by
  have h0 : Represents False ({ e with events := [] } : HpEngine B A).book e.book.queue [] :=
    h.inv.book
  have hset := HpEngine.onCancel_live h0 hget
  have hevents : (e.onOrder (.cancel number)).events = [.revoke number o.clientId 0] := hset.events
  have hqueue : (e.onOrder (.cancel number)).book.queue = e.book.queue.without number :=
    hset.book.queue_eq
  obtain ⟨ho, hid⟩ := h0.mem_of_get hget
  have hmem : o ∈ e.book.queue.orders := Queues.mem_orders.mpr ⟨_, ho⟩
  have hinj := List.inj_on_of_nodup_map (h.nodup hnd)
  have hrest : ∀ x, x ∈ (e.onOrder (.cancel number)).book.queue.orders ↔
      x ∈ e.book.queue.orders ∧ x.id ≠ number := by
    intro x
    simp only [hqueue, Queues.mem_orders, Queues.mem_without, exists_and_right]
  constructor
  · intro hown
    obtain ⟨x, -, -, hev⟩ := hown.only (.revoke number o.clientId 0) (by rw [hevents]; simp)
    injection hev
  · intro hc
    refine ⟨fun ev hev => ⟨o, hmem, hc, ?_⟩, fun x hx hne => ?_, fun x hx heq => ?_⟩
    · rw [hevents] at hev
      rw [List.mem_singleton.mp hev, hid, hc]
    · refine (hrest x).mpr ⟨hx, fun he => hne ?_⟩
      -- The order in the slot is the one of the number.
      have hxo := h.inv.book.holds.get hx
      rw [he, hget] at hxo
      rw [← Option.some.inj hxo, hc]
    · obtain rfl : x = o := hinj hx hmem (heq.trans hc.symm)
      refine ⟨fun hx' => ((hrest x).mp hx').2 hid, ?_⟩
      rw [hevents, hid, hc]
      exact List.mem_singleton_self _

/-- After any orders with distinct numbers, a revoke request takes out the
resting order of its number, and nothing else, exactly if the slot of this
number is empty or holds that order. -/
theorem revoke_own_iff (display : BigDecimal → String) (scale : SymbolScale)
    {start : HpEngine B A} (hstart : start = HpEngine.new ∨ start = HpEngine.withCapacity)
    {os : List BbOrder} (hnd : (newNumbers os).Nodup) (hzero : 0 ∉ newNumbers os)
    (he : e = os.foldl (Worker.recv display scale) start) {r : BbOrder}
    (hstatus : r.orderStatus = orderStatusRevoke) {number : Nat}
    (hnumber : parseId r.trustOrderNo = .ok number) :
    (∀ o ∈ e.book.queue.orders, o.clientId ∈ newNumbers os) ∧
      (RevokesOwn number e (Worker.recv display scale e r) ↔
        ∀ o, e.book.store.get number = some o → o.clientId = number) := by
  have h := (numbered_start hstart).run display scale os (by rwa [List.append_nil])
  rw [List.append_nil, ← he] at h
  have hrecv : Worker.recv display scale e r = e.onOrder (.cancel number) := by
    rw [Worker.recv, fromBbOrder, if_pos hstatus, hnumber]
    rfl
  refine ⟨fun o ho => h.clients.subset (List.mem_map_of_mem ho), ?_⟩
  rw [hrecv]
  cases hget : e.book.store.get number with
  | none =>
      exact iff_of_true (HpEngine.cancel_cancelsClient h.inv h.index hget).revokesOwn nofun
  | some o =>
      rw [h.revokesOwn_live hnd hget]
      exact ⟨fun hc x hx => Option.some.inj hx ▸ hc, fun hc => hc o rfl⟩

end Engine

/-- A limit bid for one unit at the price one. -/
def unitBid (no : String) : BbOrder :=
  { orderType := orderTypeBuy, trustOrderNo := no, orderForm := orderFormLimit, trustNumber := 1,
    remainingNumber := 1, trustPrice := 1 }

/-- A revoke request. -/
def revokeOf (no : String) : BbOrder :=
  { orderType := orderTypeBuy, trustOrderNo := no, orderStatus := orderStatusRevoke }

/-- The orders 7 and 9 rest in the slots 1 and 2.  A revoke request for 9 takes
out 9 only. -/
theorem revoke_own_iff_nine :
    let e := [unitBid "7", unitBid "9"].foldl (Worker.recv (fun _ => "1") ⟨2, 2⟩)
      (HpEngine.withCapacity : BTreeEngine)
    RevokesOwn 9 e (Worker.recv (fun _ => "1") ⟨2, 2⟩ e (revokeOf "9")) ∧
      (Worker.recv (fun _ => "1") ⟨2, 2⟩ e (revokeOf "9")).events = [.revoke 2 9 0] := by
  intro e
  have hempty : e.book.store.get 9 = none := by decide +kernel
  have h := revoke_own_iff (fun _ => "1") ⟨2, 2⟩ (Or.inr rfl)
    (by decide +kernel : (newNumbers [unitBid "7", unitBid "9"]).Nodup) (by decide +kernel)
    (rfl : e = _) (rfl : (revokeOf "9").orderStatus = _)
    (by decide +kernel : parseId (revokeOf "9").trustOrderNo = .ok 9)
  refine ⟨h.2.mpr fun o ho => ?_, by decide +kernel⟩
  rw [hempty] at ho
  cases ho

/-- The orders 100 and 1 rest in the slots 1 and 2.  A revoke request for 1
takes out 100, and 1 stays. -/
theorem revoke_hits_slot :
    let e := [unitBid "100", unitBid "1"].foldl (Worker.recv (fun _ => "1") ⟨2, 2⟩)
      (HpEngine.withCapacity : BTreeEngine)
    let e' := Worker.recv (fun _ => "1") ⟨2, 2⟩ e (revokeOf "1")
    (newNumbers [unitBid "100", unitBid "1"]).Nodup ∧
      e.book.queue.clients = [100, 1] ∧ e'.events = [.revoke 1 100 0] ∧
      e'.book.queue.clients = [1] ∧ ¬ RevokesOwn 1 e e' := by
  intro e e'
  have hevents : e'.events = [.revoke 1 100 0] := by decide +kernel
  refine ⟨by decide +kernel, by decide +kernel, hevents, by decide +kernel, fun h => ?_⟩
  obtain ⟨o, -, -, hev⟩ :=
    h.only (.revoke 1 100 0) (by rw [hevents]; exact List.mem_singleton_self _)
  injection hev with _ hclient
  exact absurd hclient (by decide)

end MatchCoreHp
