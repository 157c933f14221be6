import MatchRust.Core.Sweeps

/-!
# Fill or kill

The walk of a FOK order is the sweep a limit order would make, on a book it has
to give back.  The makers it takes off are kept as snapshots, best first, and
`restoreMaker` puts them back one by one.  Since they came off the front of a
sorted side, the side is then what it was, in every field (`restore_all`).

Two details of the source show up here.  The maker that is partly filled has
its average price updated on both sides.  And the last maker of a walk, if it
is filled exactly, is reported with the taker's status still at "partially
filled" (`walkFillOf`).
-/

namespace MatchCore

open MatchProtocol PriceTime OrderBook

section FillOrKill

variable [DecimalRounding] {side : Side} {o t : BbOrder} {own ms : List BbOrder} {n : Nat}

/-! ## Rollback -/

omit [DecimalRounding] in
theorem restoreMaker_eq {d : BbOrder} {pre rest : List BbOrder}
    (hs : SideSorted side.opp (pre ++ d :: rest))
    (hc : Side.fromOrderType d.orderType = some side.opp) :
    restoreMaker side (ofSides side own (pre ++ rest)) d = ofSides side own (pre ++ d :: rest) := by
  have hne : ∀ x ∈ (ofSides side own (pre ++ rest)).entries side.opp,
      x.trustOrderNo ≠ d.trustOrderNo := by
    rw [entries_ofSides_opp]
    exact hs.others_ne
  rw [restoreMaker, removeByOrderNo_absent hne, insert_fresh hc hne]
  simp only [entries_ofSides_opp, setEntries_ofSides_opp, place_append hs]

omit [DecimalRounding] in
/-- The snapshots of the front of a side restore it. -/
theorem restore_all {rest : List BbOrder} (makers : List BbOrder) :
    ∀ (pre : List BbOrder), SideSorted side.opp (pre ++ (makers ++ rest)) →
      (∀ d ∈ makers, Side.fromOrderType d.orderType = some side.opp) →
      makers.foldl (restoreMaker side) (ofSides side own (pre ++ rest)) =
        ofSides side own (pre ++ (makers ++ rest)) := by
  induction makers with
  | nil => intro pre _ _; rfl
  | cons d makers ih =>
      intro pre hs hc
      have hsub : (pre ++ d :: rest).Sublist (pre ++ (d :: makers ++ rest)) :=
        (List.Sublist.cons_cons d (List.sublist_append_right makers rest)).append_left pre
      rw [List.foldl_cons, restoreMaker_eq (hs.sublist hsub) (hc d (List.mem_cons_self ..))]
      have ih' := ih (pre ++ [d]) (by simpa using hs)
        fun x hx => hc x (List.mem_cons_of_mem _ hx)
      simpa using ih'

omit [DecimalRounding] in
/-- A rollback restores the makers and revokes the taker, with what is left of
it at that point. -/
theorem rollbackFok_eq {makers : List BbOrder} (hF : Ahead side t own ms)
    (ht : terms t = terms o) (hs : SideSorted side.opp (makers ++ ms))
    (hc : ∀ d ∈ makers, Side.fromOrderType d.orderType = some side.opp) :
    rollbackFok side (ofSides side (t :: own) ms) o makers =
      (.fail (revokeOf o (remaining t) "fok_fail"), ofSides side own (makers ++ ms)) := by
  have hrest : makers.foldl (restoreMaker side) (ofSides side (t :: own) ms) =
      ofSides side (t :: own) (makers ++ ms) := restore_all makers [] hs hc
  have hcode : Side.fromOrderType o.orderType = some side := by
    rw [← orderType_of_terms ht]
    exact hF.code
  have hrem : (ofSides side (t :: own) (makers ++ ms)).removeByOrderNo side o.trustOrderNo =
      (some t, ofSides side own (makers ++ ms)) := by
    rw [← trustOrderNo_of_terms ht, removeByOrderNo_head (entries_ofSides ..) hF.sorted]
    simp
  simp only [rollbackFok, hrest, revokeFokOrFallback,
    revokeOrderWithReason_present hcode hrem, Option.getD_some, revokeOf_of_terms ht]

/-! ## The walk -/

omit [DecimalRounding] in
/-- The event of a fill of a walk. -/
def walkFillOf (o : BbOrder) (f : PriceTime.Fill BbOrder BigDecimal) : MatchEvent :=
  fillEvent o.symbolKey o f.maker f.maker.trustPrice f.qty f.takerLeft f.makerLeft
    (if f.makerLeft = 0 then orderStatusSuccessPart else orderStatusSuccess) (statusOf f.makerLeft)

/-- The sweep of a FOK order. -/
def fokSweep (side : Side) (o t : BbOrder) (ms : List BbOrder) : Sweep BbOrder BigDecimal :=
  sweep averagedMakers (crossing side o) none (remaining t) ms

/-- What the walk makes of its sweep. -/
def walkResult (side : Side) (o : BbOrder) (own : List BbOrder) (r : Sweep BbOrder BigDecimal)
    (evs : List MatchEvent) (restored : List BbOrder) : FokWalk × OrderBook :=
  if r.left = 0 then (.done (evs ++ r.fills.map (walkFillOf o)), ofSides side own r.book)
  else (.fail (revokeOf o r.left "fok_fail"), ofSides side own restored)

omit [DecimalRounding] in
theorem walkResult_cons (f : PriceTime.Fill BbOrder BigDecimal) (r : Sweep BbOrder BigDecimal)
    (evs : List MatchEvent) (restored : List BbOrder) :
    walkResult side o own (.cons f r) evs restored =
      walkResult side o own r (evs ++ [walkFillOf o f]) restored := by
  simp [walkResult, Sweep.cons]

omit [DecimalRounding] in
/-- Take the front maker and the taker off. -/
theorem Ahead.remove_both {m : BbOrder} (h : Ahead side t own (m :: ms)) :
    (((ofSides side (t :: own) (m :: ms)).removeByOrderNo side.opp m.trustOrderNo).2.removeByOrderNo
      side t.trustOrderNo).2 = ofSides side own ms := by
  rw [removeByOrderNo_head (entries_ofSides_opp ..) h.makers, setEntries_ofSides_opp,
    removeByOrderNo_head (entries_ofSides ..) h.sorted, setEntries_ofSides]

omit [DecimalRounding] in
/-- The snapshots of the makers carry the code of their side. -/
theorem Ahead.snapshot_codes {m : BbOrder} {makers : List BbOrder}
    (h : Ahead side t own (m :: ms))
    (hc : ∀ d ∈ makers, Side.fromOrderType d.orderType = some side.opp) :
    ∀ d ∈ makers ++ [m], Side.fromOrderType d.orderType = some side.opp := by
  intro d hd
  rcases List.mem_append.mp hd with hd | hd
  · exact hc d hd
  · rw [List.mem_singleton.mp hd]
    exact h.makerCode m (List.mem_cons_self ..)

/-- There are no more makers: the walk is rolled back. -/
theorem fokWalk_nil {evs : List MatchEvent} {makers : List BbOrder} :
    fokWalk side (n + 1) (ofSides side (t :: own) []) t o evs makers =
      some (rollbackFok side (ofSides side (t :: own) []) o makers) := by
  have hfirst : (ofSides side (t :: own) []).first side.opp = none := by simp [first]
  rw [fokWalk, hfirst]

/-- So it is where the next maker does not cross. -/
theorem fokWalk_gap {m : BbOrder} {evs : List MatchEvent} {makers : List BbOrder}
    (ht : terms t = terms o) (hcr : crossing side o m = false)
    (hne : makers ≠ []) (hpos : 0 < t.remainingNumber) :
    fokWalk side (n + 1) (ofSides side (t :: own) (m :: ms)) t o evs makers =
      some (rollbackFok side (ofSides side (t :: own) (m :: ms)) o makers) := by
  have hfirst : (ofSides side (t :: own) (m :: ms)).first side.opp = some m := by simp [first]
  have hprice : side.crosses t.trustPrice m.trustPrice = false := by
    rw [trustPrice_of_terms ht]
    exact hcr
  rw [fokWalk, hfirst]
  simp only [hprice, if_true, if_neg hne, fokPriceGapAfterFills, if_pos hpos]

/-- The maker is larger than the taker: the walk ends. -/
theorem fokWalk_part {m : BbOrder} {evs : List MatchEvent} {makers : List BbOrder}
    (hF : Ahead side t own (m :: ms)) (ht : terms t = terms o) (hcr : crossing side o m = true)
    (hlt : remaining t < remaining m) :
    fokWalk side (n + 1) (ofSides side (t :: own) (m :: ms)) t o evs makers =
      some (.done (evs ++ [walkFillOf o ⟨m, remaining t, 0, remaining m - remaining t⟩]),
        ofSides side own (makerPartAvg m (remaining t) :: ms)) := by
  have hfirst : (ofSides side (t :: own) (m :: ms)).first side.opp = some m := by simp [first]
  have hprice : side.crosses t.trustPrice m.trustPrice = true := by
    rw [trustPrice_of_terms ht]
    exact hcr
  have hins := hF.insert_maker (makerPartAvg m (remaining t)) rfl
  have hs : t.symbolKey = o.symbolKey := (congrArg BbOrder.symbolKey ht :)
  have hty : t.type = o.type := (congrArg BbOrder.type ht :)
  have hleft : remaining m - remaining t ≠ 0 := (sub_pos.mpr hlt).ne'
  rw [fokWalk, hfirst]
  simp only [hprice, Bool.true_eq_false, if_false, if_neg (not_le_of_gt hlt), if_pos hlt,
    hF.remove_both, hins, walkFillOf, if_neg hleft, statusOf_sub hlt]
  simp [fillEvent, takerFull, makerPartAvg, hs, hty, trustOrderNo_of_terms ht, remaining, sub_sub]

/-- The maker is not larger: it is taken, and the walk goes on unless the taker
is filled with it. -/
theorem fokWalk_take {m : BbOrder} {evs : List MatchEvent} {makers : List BbOrder}
    (hF : Ahead side t own (m :: ms)) (ht : terms t = terms o) (hcr : crossing side o m = true)
    (hle : remaining m ≤ remaining t) :
    fokWalk side (n + 1) (ofSides side (t :: own) (m :: ms)) t o evs makers =
      let t' := takerPart t (remaining m) m.trustPrice
      let evs' := evs ++ [walkFillOf o ⟨m, remaining m, remaining t - remaining m, 0⟩]
      if remaining m < remaining t then
        if ms = [] then
          some (rollbackFok side (ofSides side (t' :: own) ms) o (makers ++ [m]))
        else fokWalk side n (ofSides side (t' :: own) ms) t' o evs' (makers ++ [m])
      else some (.done evs', ofSides side own ms) := by
  have hfirst : (ofSides side (t :: own) (m :: ms)).first side.opp = some m := by simp [first]
  have hprice : side.crosses t.trustPrice m.trustPrice = true := by
    rw [trustPrice_of_terms ht]
    exact hcr
  have ht' := terms_takerPart t (remaining m) m.trustPrice
  have hins := hF.insert_taker ht'
  have hs' := hF.sorted.replace_head (rank_of_terms ht') (trustOrderNo_of_terms ht')
  have hrem := removeByOrderNo_head
    (entries_ofSides side (takerPart t (remaining m) m.trustPrice :: own) ms) hs'
  have hs : t.symbolKey = o.symbolKey := (congrArg BbOrder.symbolKey ht :)
  have hty : t.type = o.type := (congrArg BbOrder.type ht :)
  rw [fokWalk, hfirst]
  simp only [hprice, Bool.true_eq_false, if_false, if_pos hle, if_neg (not_lt.mpr hle),
    hF.remove_both, hins, hrem, isEmpty_eq_true, entries_ofSides_opp, setEntries_ofSides,
    walkFillOf, if_true, statusOf_zero]
  simp [fillEvent, takerPart, hs, hty, trustOrderNo_of_terms ht, remaining, sub_sub]

/-- The walk of a FOK order sweeps, and restores the makers if that does not
fill it. -/
theorem fokWalk_eq (ms : List BbOrder) : ∀ {n : Nat} {t : BbOrder} (evs : List MatchEvent)
    {makers : List BbOrder}, Front side t own ms → terms t = terms o →
      t.remainingNumber = remaining t → SideSorted side.opp (makers ++ ms) →
      (∀ d ∈ makers, Side.fromOrderType d.orderType = some side.opp) →
      (makers = [] → ∀ m ∈ ms.head?, crossing side o m = true) → ms.length < n →
      fokWalk side n (ofSides side (t :: own) ms) t o evs makers =
        some (walkResult side o own (fokSweep side o t ms) evs (makers ++ ms)) := by
  induction ms with
  | nil =>
      intro n t evs makers hF ht _ hs hc _ hn
      obtain ⟨n, rfl⟩ : ∃ k, n = k + 1 := ⟨n - 1, by omega⟩
      rw [fokWalk_nil, rollbackFok_eq hF.toAhead ht hs hc, walkResult, fokSweep, sweep_nil,
        if_neg hF.live.ne']
  | cons m ms ih =>
      intro n t evs makers hF ht hfield hs hc hhead hn
      obtain ⟨n, rfl⟩ : ∃ k, n = k + 1 := ⟨n - 1, by omega⟩
      by_cases hcr : crossing side o m = true
      case neg =>
        rw [Bool.not_eq_true] at hcr
        have hne : makers ≠ [] := fun h => by simp [hhead h m rfl] at hcr
        rw [fokWalk_gap ht hcr hne (hfield ▸ hF.live), rollbackFok_eq hF.toAhead ht hs hc, fokSweep,
          sweep_stop averagedMakers (Or.inr hcr), walkResult, if_neg hF.live.ne']
      rcases lt_or_ge (remaining t) (remaining m) with hlt | hle
      · rw [fokWalk_part hF.toAhead ht hcr hlt, fokSweep,
          sweep_part averagedMakers (by simp) hcr hlt]
        simp [walkResult, averagedMakers]
      rw [fokWalk_take hF.toAhead ht hcr hle]
      rcases hle.lt_or_eq with hlt | heq
      · have hlive : 0 < remaining (takerPart t (remaining m) m.trustPrice) := by
          rw [remaining_takerPart]
          exact sub_pos.mpr hlt
        have hF' := hF.next (terms_takerPart t (remaining m) m.trustPrice) hlive
        have hs' : SideSorted side.opp (makers ++ [m] ++ ms) := by simpa using hs
        have hc' := hF.toAhead.snapshot_codes hc
        have hsweep : fokSweep side o t (m :: ms) =
            .cons ⟨m, remaining m, remaining t - remaining m, 0⟩
              (fokSweep side o (takerPart t (remaining m) m.trustPrice) ms) := by
          rw [fokSweep, sweep_more averagedMakers (by simp) hcr hlt, fokSweep, remaining_takerPart]
          rfl
        have hn' : ms.length < n := by simpa using hn
        have hfield' : (takerPart t (remaining m) m.trustPrice).remainingNumber =
            remaining (takerPart t (remaining m) m.trustPrice) := rfl
        have ih' := ih (evs ++ [walkFillOf o ⟨m, remaining m, remaining t - remaining m, 0⟩])
          hF' ht hfield' hs' hc' (by simp) hn'
        rw [hsweep, walkResult_cons]
        simp only [if_pos hlt]
        split
        next hnil =>
          rw [rollbackFok_eq hF'.toAhead ht hs' hc', hnil, fokSweep, sweep_nil, walkResult,
            if_neg hlive.ne']
          simp
        next => rw [ih']; simp
      · rw [fokSweep, sweep_exact averagedMakers (by simp) hcr heq]
        simp [walkResult, heq]

/-! ## The handler -/

omit [DecimalRounding] in
/-- The events of a FOK order that is filled.  A single fill is reported by the
handler itself, more of them by the walk. -/
def fokEvents (o : BbOrder) : List (PriceTime.Fill BbOrder BigDecimal) → List MatchEvent
  | [f] => [fillOf o f]
  | fills => fills.map (walkFillOf o)

/-- A FOK order larger than the best maker has more than one fill. -/
theorem fokEvents_of_lt {m : BbOrder} (hcr : crossing side o m = true)
    (hlt : remaining m < remaining o) (h0 : (fokSweep side o o (m :: ms)).left = 0) :
    fokEvents o (fokSweep side o o (m :: ms)).fills =
      (fokSweep side o o (m :: ms)).fills.map (walkFillOf o) := by
  have hsum := sum_fills averagedMakers (crossing side o) none (remaining o - remaining m) ms
  rw [fokSweep, sweep_more averagedMakers (by simp) hcr hlt] at h0 ⊢
  change (sweep averagedMakers (crossing side o) none (remaining o - remaining m) ms).left = 0 at h0
  change fokEvents o (_ :: (sweep averagedMakers (crossing side o) none
    (remaining o - remaining m) ms).fills) = _
  cases hfs :
    (sweep averagedMakers (crossing side o) none (remaining o - remaining m) ms).fills with
  | nil =>
      rw [hfs, h0] at hsum
      exact absurd hsum (by simpa using (sub_pos.mpr hlt).ne)
  | cons g gs => exact (congrArg (List.map (walkFillOf o) <| _ :: ·) hfs).symm

/-- What a FOK order does. -/
def fokResult (side : Side) (o : BbOrder) (own ms : List BbOrder)
    (r : Sweep BbOrder BigDecimal) : OrderBook × List MatchEvent :=
  if r.left = 0 then (ofSides side own r.book, fokEvents o r.fills)
  else (ofSides side own ms, [revokeOf o r.left "fok_fail"])

/-- A FOK order larger than the best maker walks. -/
theorem fokHandle_walk {m : BbOrder} (hlt : remaining m < remaining o) :
    fokHandle side n (ofSides side (o :: own) (m :: ms)) =
      match fokWalk side n (ofSides side (o :: own) (m :: ms)) o o [] [] with
      | none => none
      | some (.done events, book) => some (book, events)
      | some (.fail revoke, book) => some (book, [revoke]) := by
  have hfirst : (ofSides side (o :: own) (m :: ms)).first side = some o := by simp [first]
  have hopp : (ofSides side (o :: own) (m :: ms)).first side.opp = some m := by simp [first]
  rw [fokHandle, hfirst, hopp]
  exact if_pos hlt

/-- A FOK order as large as the best maker takes it. -/
theorem fokHandle_exact {m : BbOrder} (hF : Ahead side o own (m :: ms))
    (heq : remaining m = remaining o) :
    fokHandle side n (ofSides side (o :: own) (m :: ms)) =
      some (ofSides side own ms, [fillOf o ⟨m, remaining o, 0, 0⟩]) := by
  have hfirst : (ofSides side (o :: own) (m :: ms)).first side = some o := by simp [first]
  have hopp : (ofSides side (o :: own) (m :: ms)).first side.opp = some m := by simp [first]
  rw [fokHandle, hfirst, hopp]
  simp only [heq, if_neg (lt_irrefl _), if_true, hF.remove_both]
  simp [fillOf, fillEvent, takerFull, statusOf_zero]

/-- A smaller FOK order takes a part of it. -/
theorem fokHandle_part {m : BbOrder} (hF : Ahead side o own (m :: ms))
    (hgt : remaining o < remaining m) :
    fokHandle side n (ofSides side (o :: own) (m :: ms)) =
      some (ofSides side own (makerPartAvg m (remaining o) :: ms),
        [fillOf o ⟨m, remaining o, 0, remaining m - remaining o⟩]) := by
  have hfirst : (ofSides side (o :: own) (m :: ms)).first side = some o := by simp [first]
  have hopp : (ofSides side (o :: own) (m :: ms)).first side.opp = some m := by simp [first]
  have hins := hF.insert_maker (makerPartAvg m (remaining o)) rfl
  have hboth : (ofSides side own (m :: ms)).removeByOrderNo side.opp m.trustOrderNo =
      (some m, ofSides side own ms) := by
    rw [removeByOrderNo_head (entries_ofSides_opp ..) hF.makers, setEntries_ofSides_opp]
  rw [fokHandle, hfirst, hopp]
  simp only [if_neg (not_lt_of_gt hgt), if_neg hgt.ne, hF.revoke_taker, hboth,
    Option.getD_some, hins]
  simp only [fillOf, statusOf_sub hgt, statusOf_zero]
  simp [fillEvent, takerFull, makerPartAvg, remaining, sub_sub]

/-- A FOK order that crosses, at the front of its side. -/
theorem fokHandle_eq {m : BbOrder} (hF : Front side o own (m :: ms)) (hlive : Live o)
    (hcr : crossing side o m = true) (hn : ms.length + 1 < n) :
    fokHandle side n (ofSides side (o :: own) (m :: ms)) =
      some (fokResult side o own (m :: ms) (fokSweep side o o (m :: ms))) := by
  rcases lt_trichotomy (remaining m) (remaining o) with hlt | heq | hgt
  · have hw : fokWalk side n (ofSides side (o :: own) (m :: ms)) o o [] [] =
        some (walkResult side o own (fokSweep side o o (m :: ms)) [] (m :: ms)) :=
      fokWalk_eq (m :: ms) [] hF rfl hlive.field hF.makers (by simp) (by simpa using hcr) hn
    rw [fokHandle_walk hlt, hw]
    simp only [walkResult, fokResult, List.nil_append]
    by_cases h0 : (fokSweep side o o (m :: ms)).left = 0
    · simp only [if_pos h0, fokEvents_of_lt hcr hlt h0]
    · simp only [if_neg h0]
  · have hsw : fokSweep side o o (m :: ms) = ⟨[⟨m, remaining o, 0, 0⟩], ms, 0⟩ :=
      sweep_exact averagedMakers (by simp) hcr heq
    rw [fokHandle_exact hF.toAhead heq, hsw]
    simp [fokResult, fokEvents]
  · have hsw : fokSweep side o o (m :: ms) =
        ⟨[⟨m, remaining o, 0, remaining m - remaining o⟩], makerPartAvg m (remaining o) :: ms, 0⟩ :=
      sweep_part averagedMakers (by simp) hcr hgt
    rw [fokHandle_part hF.toAhead hgt, hsw]
    simp [fokResult, fokEvents]

/-- A FOK order that crosses at the front of its side is handed over. -/
theorem heightLoop_fok_go {step : OrderBook → List MatchEvent × OrderBook} {price : BigDecimal}
    {orderNo : String} {m : BbOrder} {evs : List MatchEvent} {out : OrderBook × List MatchEvent}
    (hcr : crossing side o m = true)
    (hh : fokHandle side (n + 1) (ofSides side (o :: own) (m :: ms)) = some out) :
    heightLoop side step (fokHandle side) orderFormFok orderNo price (n + 1)
        (ofSides side (o :: own) (m :: ms)) evs = some (out.1, evs ++ out.2) := by
  have hpo : orderFormFok ≠ orderFormPostOnly := by decide
  have hioc : orderFormFok ≠ orderFormIoc := by decide
  have hcr' : side.crosses o.trustPrice m.trustPrice = true := hcr
  rw [heightLoop]
  simp only [if_neg hpo, isEmpty, first, entries_ofSides, entries_ofSides_opp,
    List.isEmpty_cons, List.head?_cons, hioc, false_and, hcr', Bool.false_eq_true,
    Bool.true_eq_false, if_false, if_true, hh]

/-- The loop of a FOK order. -/
theorem heightLoop_fok_eq {step : OrderBook → List MatchEvent × OrderBook} {price : BigDecimal}
    (hs : Sides side own ms) (hi : Incoming side o own ms) (hn : ms.length + 2 ≤ n) :
    heightLoop side step (fokHandle side) orderFormFok o.trustOrderNo price n
        (ofSides side (place side o own) ms) [] =
      some (fokResult side o own ms (fokSweep side o o ms)) := by
  obtain ⟨n, rfl⟩ : ∃ k, n = k + 1 := ⟨n - 1, by omega⟩
  rcases hs.toSidesApart.ahead_or_apart o with ⟨⟨m, hm, hcr⟩, hlt, hp⟩ | hap
  · cases ms with
    | nil => cases hm
    | cons b ms =>
        cases hm
        rw [hp, heightLoop_fok_go hcr
          (fokHandle_eq (hi.front hs hlt) hi.live hcr (by simp at hn; omega)), List.nil_append]
  · have hsw : fokSweep side o o ms = ⟨[], ms, remaining o⟩ :=
      sweep_blocked averagedMakers fun m hm => hap m (List.mem_of_mem_head? hm)
    have hreason : iocOrFokReason orderFormFok = "fok_fail" := by decide
    rw [heightLoop_revoke (Or.inr rfl) (hi.toEntering.remove hs.toSidesApart)
      (apart_placed hs.toSidesApart hi.toEntering hap), hsw, hreason]
    simp [fokResult, hi.live.pos.ne']

end FillOrKill

end MatchCore
