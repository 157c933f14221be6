import MatchRust.Core.Outcomes

/-!
# Bounded work

How many iterations the loops take, on books that orders of any kind lead to.
Nothing is assumed of the quantities here: they may be zero, negative, or at
odds with what an order says it consumed.  What bounds a loop is that every
match takes both best orders off the book and puts back at most one of them.

So along the makers each fill but the last takes its maker off for good, and
the last may leave it, with other quantities (`Taken`).  A taker that crosses is
the first of its side, because the orders that rest do not cross
(`SidesApart`), and once it is gone the loop stops.  Hence a loop returns with
two iterations more than there are makers, and with any larger budget it returns
the same (`orderLoop_worked`).
-/

namespace MatchCore

open MatchProtocol PriceTime OrderBook

/-! ## Fills along the makers -/

/-- Fills along the makers, with the makers before and after. -/
inductive Taken : List BbOrder → List FillEvent → List BbOrder → Prop where
  /-- There is none. -/
  | nil (ms : List BbOrder) : Taken ms [] ms
  /-- The front maker is filled and gone. -/
  | full {m : BbOrder} {ms ms' : List BbOrder} {f : FillEvent} {fs : List FillEvent} :
      f.makerOrderNo = m.trustOrderNo → Taken ms fs ms' → Taken (m :: ms) (f :: fs) ms'
  /-- It stays, with other quantities, and there are no more fills. -/
  | part {m m' : BbOrder} {ms : List BbOrder} {f : FillEvent} :
      f.makerOrderNo = m.trustOrderNo → terms m' = terms m → Taken (m :: ms) [f] (m' :: ms)

namespace Taken

variable {ms ms' : List BbOrder} {fs : List FillEvent}

/-- The makers that stay are makers there were. -/
theorem terms_sublist (h : Taken ms fs ms') : (ms'.map terms).Sublist (ms.map terms) := by
  induction h with
  | nil ms => exact List.Sublist.refl _
  | full _ _ ih => exact ih.cons _
  | part _ ht => simp [ht]

theorem exists_old (h : Taken ms fs ms') {x : BbOrder} (hx : x ∈ ms') :
    ∃ m ∈ ms, terms m = terms x :=
  List.mem_map.mp (h.terms_sublist.subset (List.mem_map_of_mem hx))

/-- The fills go along the makers from the best one on. -/
theorem makers_initial (h : Taken ms fs ms') :
    fs.map (·.makerOrderNo) <+: ms.map (·.trustOrderNo) := by
  induction h with
  | nil ms => exact List.nil_prefix
  | full hf _ ih =>
      rw [List.map_cons, List.map_cons, hf]
      exact (List.prefix_cons_inj _).mpr ih
  | part hf _ => simp [hf]

/-- Each fill but the last takes its maker off. -/
theorem removed (h : Taken ms fs ms') (hd : (ms.map (·.trustOrderNo)).Nodup) :
    ∀ f ∈ fs.dropLast, ∀ x ∈ ms', x.trustOrderNo ≠ f.makerOrderNo := by
  induction h with
  | nil ms => simp
  | part hf ht => simp
  | @full m ms ms' f fs hf htaken ih =>
      rw [List.map_cons, List.nodup_cons] at hd
      intro g hg x hx
      cases fs with
      | nil => cases hg
      | cons f' fs =>
          rw [List.dropLast_cons_cons] at hg
          rcases List.mem_cons.mp hg with rfl | hg
          · obtain ⟨y, hy, hterms⟩ := htaken.exists_old hx
            rw [hf, ← trustOrderNo_of_terms hterms]
            exact fun he => hd.1 (List.mem_map.mpr ⟨y, hy, he⟩)
          · exact ih hd.2 g hg x hx

end Taken

/-! ## Loops -/

section Loops

variable [DecimalRounding] {side : Side} {o : BbOrder} {own ms : List BbOrder}
  {crosses : BbOrder → Bool} {caps : Option Nat → Prop}
  {rest : Option Nat → BbOrder → List BbOrder → List MatchEvent → Outcome}

omit [DecimalRounding] in
/-- How a loop ends: the taker is filled, or the loop disposes of the rest of it,
where it has had its fills or the next maker is not for it. -/
inductive LoopEnd (side : Side) (o : BbOrder) (own : List BbOrder) (crosses : BbOrder → Bool)
    (caps : Option Nat → Prop)
    (rest : Option Nat → BbOrder → List BbOrder → List MatchEvent → Outcome)
    (ms : List BbOrder) (evs : List MatchEvent) : Outcome → Prop where
  | filled {fs : List FillEvent} {ms' : List BbOrder} : Taken ms fs ms' →
      LoopEnd side o own crosses caps rest ms evs
        (some (ofSides side own ms', evs ++ fs.map .fill))
  | rests {fs : List FillEvent} {ms' : List BbOrder} {cap : Option Nat} {t : BbOrder} :
      Taken ms fs ms' → caps cap → terms t = terms o → Ahead side t own ms' →
      cap = some 0 ∨ (∀ m ∈ ms'.head?, crosses m = false) →
      LoopEnd side o own crosses caps rest ms evs (rest cap t ms' (evs ++ fs.map .fill))

omit [DecimalRounding] in
/-- There are no fills. -/
theorem LoopEnd.at_once {cap : Option Nat} {t : BbOrder} (evs : List MatchEvent) (hcap : caps cap)
    (ht : terms t = terms o) (hF : Ahead side t own ms)
    (hstop : cap = some 0 ∨ (∀ m ∈ ms.head?, crosses m = false)) :
    LoopEnd side o own crosses caps rest ms evs (rest cap t ms evs) := by
  have hend : LoopEnd side o own crosses caps rest ms evs
    (rest cap t ms (evs ++ List.map .fill [])) := .rests (.nil ms) hcap ht hF hstop
  simpa using hend

omit [DecimalRounding] in
/-- A fill that takes the front maker off comes before. -/
theorem LoopEnd.cons {m : BbOrder} {f : FillEvent} {evs : List MatchEvent} {out : Outcome}
    (hf : f.makerOrderNo = m.trustOrderNo)
    (h : LoopEnd side o own crosses caps rest ms (evs ++ [.fill f]) out) :
    LoopEnd side o own crosses caps rest (m :: ms) evs out := by
  cases h with
  | @filled fs ms' ht =>
      have hfilled : LoopEnd side o own crosses caps rest (m :: ms) evs
        (some (ofSides side own ms', evs ++ (f :: fs).map .fill)) := .filled (.full hf ht)
      simpa using hfilled
  | @rests fs ms' cap t ht hcap hterms hahead hstop =>
      have hrests : LoopEnd side o own crosses caps rest (m :: ms) evs
        (rest cap t ms' (evs ++ (f :: fs).map .fill)) :=
        .rests (.full hf ht) hcap hterms hahead hstop
      simpa using hrests

/-- A loop ends, with two iterations more than there are makers, and in one way
for every larger budget. -/
theorem TakerLoop.ends {loop next : Option Nat → Nat → OrderBook → List MatchEvent → Outcome}
    (L : TakerLoop side o own crosses caps loop next rest) (hform : o.orderForm ≠ orderFormFok)
    (ms : List BbOrder) : ∀ {cap : Option Nat} {t : BbOrder} (evs : List MatchEvent),
      caps cap → terms t = terms o → Ahead side t own ms → cap ≠ some 0 →
      ∃ out, LoopEnd side o own crosses caps rest ms evs out ∧
        ∀ n, ms.length + 2 ≤ n → loop cap n (ofSides side (t :: own) ms) evs = out := by
  induction ms with
  | nil =>
      intro cap t evs hok ht hF hcap
      refine ⟨_, .at_once evs hok ht hF (Or.inr (by simp)), fun n hn => ?_⟩
      obtain ⟨n, rfl⟩ : ∃ k, n = k + 1 := ⟨n - 1, by omega⟩
      rw [L.stop hok ht hF hcap (by simp)]
  | cons m ms ih =>
      intro cap t evs hok ht hF hcap
      by_cases hc : crosses m = true
      case neg =>
        have hstop : ∀ x ∈ (m :: ms).head?, crosses x = false := by simpa using hc
        refine ⟨_, .at_once evs hok ht hF (Or.inr hstop), fun n hn => ?_⟩
        obtain ⟨n, rfl⟩ : ∃ k, n = k + 1 := ⟨n - 1, by omega⟩
        rw [L.stop hok ht hF hcap hstop]
      rcases lt_trichotomy (remaining m) (remaining t) with hlt | heq | hgt
      · -- The maker is exhausted, and one maker less is to be met.
        have ht' : terms (takerPart t (remaining m) m.trustPrice) = terms o := ht
        have hF' := hF.next (terms_takerPart t (remaining m) m.trustPrice)
        have hform' : t.orderForm ≠ orderFormFok := by rwa [orderForm_of_terms ht]
        have hstep := (aheadStep side).more hF hform' hlt
        have hpred := L.pred hok
        by_cases hcap' : cap.map Nat.pred = some 0
        · rw [hcap'] at hpred
          have hend : LoopEnd side o own crosses caps rest ms _ _ := .at_once
            (evs ++ [fillOf t ⟨m, remaining m, remaining t - remaining m, 0⟩]) hpred ht' hF'
            (Or.inl rfl)
          refine ⟨_, hend.cons rfl, fun n hn => ?_⟩
          obtain ⟨n, rfl⟩ : ∃ k, n = k + 1 := ⟨n - 1, by omega⟩
          rw [L.go hok ht hF hcap hc, hstep, hcap']
          exact L.capped hpred ht' hF'
        · obtain ⟨out, hend, hout⟩ := ih
            (evs ++ [fillOf t ⟨m, remaining m, remaining t - remaining m, 0⟩]) hpred ht' hF' hcap'
          refine ⟨out, hend.cons rfl, fun n hn => ?_⟩
          obtain ⟨n, rfl⟩ : ∃ k, n = k + 1 := ⟨n - 1, by omega⟩
          rw [L.go hok ht hF hcap hc, hstep]
          simp only [L.resume hpred ht' hF' hcap']
          exact hout n (by simp at hn; omega)
      · -- Both are.
        have hF' := hF.next (rfl : terms t = terms t)
        have hend : LoopEnd side o own crosses caps rest (m :: ms) evs
          (some (ofSides side own ms,
            evs ++ List.map .fill [report t (statusOf 0) ⟨m, remaining t, 0, 0⟩])) :=
          .filled (.full rfl (.nil ms))
        refine ⟨_, hend, fun n hn => ?_⟩
        obtain ⟨n, rfl⟩ : ∃ k, n = k + 1 + 1 := ⟨n - 2, by simp at hn; omega⟩
        rw [L.go hok ht hF hcap hc, (aheadStep side).exact hF heq,
          L.filled (hF'.others_ne_of_terms ht) hF'.apart]
        rfl
      · -- The taker is.
        have hm := terms_reduce side (remaining t) m
        have hF' := hF.replace_maker hm
        have hend : LoopEnd side o own crosses caps rest (m :: ms) evs
          (some (ofSides side own ((makersOf side).reduce (remaining t) m :: ms),
            evs ++ List.map .fill
              [report t (statusOf 0) ⟨m, remaining t, 0, remaining m - remaining t⟩])) :=
          .filled (.part rfl hm)
        refine ⟨_, hend, fun n hn => ?_⟩
        obtain ⟨n, rfl⟩ : ∃ k, n = k + 1 + 1 := ⟨n - 2, by simp at hn; omega⟩
        rw [L.go hok ht hF hcap hc, (aheadStep side).part hF hgt,
          L.filled (hF'.others_ne_of_terms ht) hF'.apart]
        rfl

end Loops

/-! ## Orders -/

/-- What an order of any quantity makes of the two sides: it is gone after some
fills, with or without a revoke, or the rest of it is placed where it crosses
nothing. -/
inductive Worked (side : Side) (o : BbOrder) (own ms : List BbOrder) :
    OrderBook × List MatchEvent → Prop where
  | gone {fs : List FillEvent} {ms' : List BbOrder} (revoke : Option RevokeEvent) :
      Taken ms fs ms' →
      Worked side o own ms (ofSides side own ms', fs.map .fill ++ (revoke.map .revoke).toList)
  | rests {fs : List FillEvent} {ms' : List BbOrder} {t : BbOrder} :
      Taken ms fs ms' → terms t = terms o →
      (∀ m ∈ ms', side.crosses o.trustPrice m.trustPrice = false) →
      Worked side o own ms (ofSides side (place side t own) ms', fs.map .fill)

section Orders

variable {side : Side} {o : BbOrder} {own ms : List BbOrder}

/-- A loop that returns from its first iteration. -/
theorem enough_of_succ {loop : Nat → Outcome} {k : Nat} {res : OrderBook × List MatchEvent}
    (h : ∀ n, loop (n + 1) = some res) : ∀ n, k + 2 ≤ n → loop n = some res := by
  intro n hn
  obtain ⟨n, rfl⟩ : ∃ k, n = k + 1 := ⟨n - 1, by omega⟩
  exact h n

/-- An order may be revoked at once. -/
theorem Worked.revoked (x : BbOrder) (left : BigDecimal) (reason : String) :
    Worked side o own ms (ofSides side own ms, [revokeOf x left reason]) :=
  .gone (some ⟨x.trustOrderNo, x.symbolKey, left, reason⟩) (.nil ms)

/-- Or rest as it came. -/
theorem Worked.placed (h : ∀ m ∈ ms, side.crosses o.trustPrice m.trustPrice = false) :
    Worked side o own ms (ofSides side (place side o own) ms, []) :=
  .rests (.nil ms) rfl h

/-- The end of a loop that revokes the rest of the taker. -/
theorem LoopEnd.worked_revoke {crosses : BbOrder → Bool} {caps : Option Nat → Prop}
    {rest : Option Nat → BbOrder → List BbOrder → List MatchEvent → Outcome} {out : Outcome}
    (hrest : ∀ cap t ms evs, ∃ reason,
      rest cap t ms evs = some (ofSides side own ms, evs ++ [revokeOf o (remaining t) reason]))
    (h : LoopEnd side o own crosses caps rest ms [] out) :
    ∃ res, Worked side o own ms res ∧ out = some res := by
  cases h with
  | @filled fs ms' ht =>
      have hgone : Worked side o own ms (ofSides side own ms', fs.map .fill ++ []) := .gone none ht
      rw [List.append_nil] at hgone
      exact ⟨_, hgone, rfl⟩
  | @rests fs ms' cap t ht _ _ _ _ =>
      obtain ⟨reason, hr⟩ := hrest cap t ms' ([] ++ fs.map .fill)
      exact ⟨_, .gone (some ⟨o.trustOrderNo, o.symbolKey, remaining t, reason⟩) ht, hr⟩

variable [DecimalRounding]

/-- A limit order. -/
theorem matchLimitLoop_worked (hs : SidesApart side own ms) (hi : Entering side o own ms)
    (hform : o.orderForm ≠ orderFormFok) :
    ∃ res, Worked side o own ms res ∧ ∀ n, ms.length + 2 ≤ n →
      matchLimitLoop (pushRatherThan side) n (ofSides side (place side o own) ms) [] =
        some res := by
  rcases hs.ahead_or_apart o with ⟨-, hlt, hp⟩ | hap
  · obtain ⟨out, hend, hout⟩ :=
      (takerLoop_limit side o own).ends hform ms [] rfl rfl (hi.ahead hs hlt) (by simp)
    rw [hp]
    cases hend with
    | @filled fs ms' ht =>
        have hgone : Worked side o own ms (ofSides side own ms', fs.map .fill ++ []) :=
          .gone none ht
        rw [List.append_nil] at hgone
        exact ⟨_, hgone, hout⟩
    | @rests fs ms' cap t ht hcap hterms hahead hstop =>
        have hhead : ∀ m ∈ ms'.head?, crossing side o m = false :=
          hstop.resolve_left (by rw [hcap]; simp)
        have hs' := hs.shrink (List.Sublist.refl _) ht.terms_sublist
        rw [← place_eq_cons hahead.sorted.head_lt] at hout
        exact ⟨_, .rests ht hterms (hs'.apart_of_head hhead), hout⟩
  · have hs' := hs.place hi.code hi.fresh hap
    exact ⟨_, .placed hap, enough_of_succ fun n => matchLimitLoop_stop fun a ha m hm =>
      hs'.apart a (List.mem_of_mem_head? ha) m (List.mem_of_mem_head? hm)⟩

section Height

variable {step : OrderBook → List MatchEvent × OrderBook} {fok : Nat → OrderBook → Outcome}
  {price : BigDecimal}

/-- An IOC order. -/
theorem heightLoop_ioc_worked (hs : SidesApart side own ms) (hi : Entering side o own ms)
    (hform : o.orderForm ≠ orderFormFok) :
    ∃ res, Worked side o own ms res ∧ ∀ n, ms.length + 2 ≤ n →
      heightLoop side (pushRatherThan side) fok orderFormIoc o.trustOrderNo price n
        (ofSides side (place side o own) ms) [] = some res := by
  rcases hs.ahead_or_apart o with ⟨-, hlt, hp⟩ | hap
  · obtain ⟨out, hend, hout⟩ :=
      (takerLoop_ioc side o own fok price).ends hform ms [] rfl rfl (hi.ahead hs hlt) (by simp)
    obtain ⟨res, hres, rfl⟩ := hend.worked_revoke fun _ _ _ _ => ⟨_, rfl⟩
    rw [hp]
    exact ⟨res, hres, hout⟩
  · exact ⟨_, .revoked o (remaining o) (iocOrFokReason orderFormIoc), enough_of_succ fun n =>
      heightLoop_revoke (Or.inl rfl) (hi.remove hs) (apart_placed hs hi hap)⟩

omit [DecimalRounding] in
/-- A PostOnly order. -/
theorem heightLoop_postOnly_worked (hs : SidesApart side own ms) (hi : Entering side o own ms) :
    ∃ res, Worked side o own ms res ∧ ∀ n, ms.length + 2 ≤ n →
      heightLoop side step fok orderFormPostOnly o.trustOrderNo o.trustPrice n
        (ofSides side (place side o own) ms) [] = some res := by
  cases hc : ms.head?.any (crossing side o) with
  | true =>
      refine ⟨_, .revoked o (remaining o) "post_only", enough_of_succ fun n => ?_⟩
      rw [heightLoop_postOnly_eq hs hi, hc, if_pos rfl]
  | false =>
      refine ⟨_, .placed (hs.apart_of_head fun m hm => ?_), enough_of_succ fun n => ?_⟩
      · rw [Option.mem_def] at hm
        simpa [hm, crossing] using hc
      · rw [heightLoop_postOnly_eq hs hi, hc, if_neg (by decide)]

/-! A FOK order. -/

omit [DecimalRounding] in
/-- How a walk ends: with its fills, or with a revoke and the makers restored. -/
inductive WalkEnd (side : Side) (o : BbOrder) (own ms restored : List BbOrder)
    (evs : List MatchEvent) : FokWalk × OrderBook → Prop where
  | done {fs : List FillEvent} {ms' : List BbOrder} : Taken ms fs ms' →
      WalkEnd side o own ms restored evs (.done (evs ++ fs.map .fill), ofSides side own ms')
  | fail (left : BigDecimal) :
      WalkEnd side o own ms restored evs
        (.fail (revokeOf o left "fok_fail"), ofSides side own restored)

omit [DecimalRounding] in
theorem WalkEnd.cons {m : BbOrder} {f : FillEvent} {restored : List BbOrder}
    {evs : List MatchEvent} {res : FokWalk × OrderBook} (hf : f.makerOrderNo = m.trustOrderNo)
    (h : WalkEnd side o own ms restored (evs ++ [.fill f]) res) :
    WalkEnd side o own (m :: ms) restored evs res := by
  cases h with
  | @done fs ms' ht =>
      have hdone : WalkEnd side o own (m :: ms) restored evs
        (.done (evs ++ (f :: fs).map .fill), ofSides side own ms') := .done (.full hf ht)
      simpa using hdone
  | fail left => exact .fail left

/-- A walk makes at most one step more than there are makers. -/
theorem fokWalk_ends (ms : List BbOrder) : ∀ {t : BbOrder} (evs : List MatchEvent)
    {makers : List BbOrder}, Ahead side t own ms → terms t = terms o →
      (makers ≠ [] → 0 < t.remainingNumber) → SideSorted side.opp (makers ++ ms) →
      (∀ d ∈ makers, Side.fromOrderType d.orderType = some side.opp) →
      (makers = [] → ∀ m ∈ ms.head?, crossing side o m = true) →
      ∃ res, WalkEnd side o own ms (makers ++ ms) evs res ∧ ∀ n, ms.length < n →
        fokWalk side n (ofSides side (t :: own) ms) t o evs makers = some res := by
  induction ms with
  | nil =>
      intro t evs makers hF ht _ hs hc _
      refine ⟨_, .fail (remaining t), fun n hn => ?_⟩
      obtain ⟨n, rfl⟩ : ∃ k, n = k + 1 := ⟨n - 1, by omega⟩
      rw [fokWalk_nil, rollbackFok_eq hF ht hs hc]
  | cons m ms ih =>
      intro t evs makers hF ht hpos hs hc hhead
      by_cases hcr : crossing side o m = true
      case neg =>
        rw [Bool.not_eq_true] at hcr
        have hne : makers ≠ [] := fun h => by simp [hhead h m rfl] at hcr
        refine ⟨_, .fail (remaining t), fun n hn => ?_⟩
        obtain ⟨n, rfl⟩ : ∃ k, n = k + 1 := ⟨n - 1, by omega⟩
        rw [fokWalk_gap ht hcr hne (hpos hne), rollbackFok_eq hF ht hs hc]
      rcases lt_trichotomy (remaining m) (remaining t) with hlt | heq | hgt
      · -- The walk goes on with one maker less, all of them on the list of snapshots.
        have ht' := terms_takerPart t (remaining m) m.trustPrice
        have hpos' : 0 < (takerPart t (remaining m) m.trustPrice).remainingNumber := by
          have hrem : 0 < remaining (takerPart t (remaining m) m.trustPrice) := by
            rw [remaining_takerPart]
            exact sub_pos.mpr hlt
          exact hrem
        have hs' : SideSorted side.opp (makers ++ [m] ++ ms) := by simpa using hs
        obtain ⟨res, hend, hres⟩ :=
          ih (evs ++ [walkFillOf o ⟨m, remaining m, remaining t - remaining m, 0⟩])
            (hF.next ht') ht (fun _ => hpos') hs' (hF.snapshot_codes hc) (by simp)
        have hend' := hend.cons rfl
        rw [List.append_assoc, List.singleton_append] at hend'
        refine ⟨res, hend', fun n hn => ?_⟩
        obtain ⟨n, rfl⟩ : ∃ k, n = k + 1 := ⟨n - 1, by omega⟩
        rw [fokWalk_take hF ht hcr hlt.le]
        simp only [if_pos hlt]
        split
        next hnil =>
          -- The rollback here is the one the next step would make.
          subst hnil
          rw [← hres 1 (by simp), fokWalk_nil]
        next => exact hres n (by simpa using hn)
      · have hend : WalkEnd side o own (m :: ms) (makers ++ m :: ms) evs
          (.done (evs ++ List.map .fill
            [report o orderStatusSuccessPart ⟨m, remaining m, remaining t - remaining m, 0⟩]),
            ofSides side own ms) := .done (.full rfl (.nil ms))
        refine ⟨_, hend, fun n hn => ?_⟩
        obtain ⟨n, rfl⟩ : ∃ k, n = k + 1 := ⟨n - 1, by omega⟩
        rw [fokWalk_take hF ht hcr heq.le]
        simp only [if_neg heq.not_lt]
        rfl
      · have hend : WalkEnd side o own (m :: ms) (makers ++ m :: ms) evs
          (.done (evs ++ List.map .fill
            [report o orderStatusSuccess ⟨m, remaining t, 0, remaining m - remaining t⟩]),
            ofSides side own (makerPartAvg m (remaining t) :: ms)) := .done (.part rfl rfl)
        refine ⟨_, hend, fun n hn => ?_⟩
        obtain ⟨n, rfl⟩ : ∃ k, n = k + 1 := ⟨n - 1, by omega⟩
        rw [fokWalk_part hF ht hcr hgt]
        simp [walkFillOf, report, fillEvent, (sub_pos.mpr hgt).ne']

/-- A FOK order that crosses, at the front of its side. -/
theorem fokHandle_worked {m : BbOrder} (hF : Ahead side o own (m :: ms))
    (hcr : crossing side o m = true) :
    ∃ res, Worked side o own (m :: ms) res ∧ ∀ n, ms.length + 1 < n →
      fokHandle side n (ofSides side (o :: own) (m :: ms)) = some res := by
  rcases lt_trichotomy (remaining m) (remaining o) with hlt | heq | hgt
  · have hnone : ([] : List BbOrder) ≠ [] → 0 < o.remainingNumber := fun h => absurd rfl h
    obtain ⟨res, hend, hres⟩ :=
      fokWalk_ends (m :: ms) [] hF rfl hnone hF.makers (by simp) (by simpa using hcr)
    cases hend with
    | @done fs ms' ht =>
        refine ⟨_, .gone none ht, fun n hn => ?_⟩
        rw [fokHandle_walk hlt, hres n hn]
        simp
    | fail left =>
        refine ⟨_, .revoked o left "fok_fail", fun n hn => ?_⟩
        rw [fokHandle_walk hlt, hres n hn]
        rfl
  · have hgone : Worked side o own (m :: ms) (ofSides side own ms,
        List.map .fill [report o (statusOf 0) ⟨m, remaining o, 0, 0⟩] ++ []) :=
      .gone none (.full rfl (.nil ms))
    exact ⟨_, hgone, fun n _ => fokHandle_exact hF heq⟩
  · have hgone : Worked side o own (m :: ms)
        (ofSides side own (makerPartAvg m (remaining o) :: ms), List.map .fill
          [report o (statusOf 0) ⟨m, remaining o, 0, remaining m - remaining o⟩] ++ []) :=
      .gone none (.part rfl rfl)
    exact ⟨_, hgone, fun n _ => fokHandle_part hF hgt⟩

theorem heightLoop_fok_worked (hs : SidesApart side own ms) (hi : Entering side o own ms) :
    ∃ res, Worked side o own ms res ∧ ∀ n, ms.length + 2 ≤ n →
      heightLoop side step (fokHandle side) orderFormFok o.trustOrderNo price n
        (ofSides side (place side o own) ms) [] = some res := by
  rcases hs.ahead_or_apart o with ⟨⟨m, hm, hcr⟩, hlt, hp⟩ | hap
  · cases ms with
    | nil => cases hm
    | cons b ms =>
        cases hm
        obtain ⟨res, hres, hh⟩ := fokHandle_worked (hi.ahead hs hlt) hcr
        refine ⟨res, hres, fun n hn => ?_⟩
        obtain ⟨n, rfl⟩ : ∃ k, n = k + 1 := ⟨n - 1, by omega⟩
        rw [hp, heightLoop_fok_go hcr (hh (n + 1) (by simp at hn; omega)), List.nil_append]
  · exact ⟨_, .revoked o (remaining o) (iocOrFokReason orderFormFok), enough_of_succ fun n =>
      heightLoop_revoke (Or.inr rfl) (hi.remove hs) (apart_placed hs hi hap)⟩

end Height

/-- A market order. -/
theorem marketLoop_worked (hs : SidesApart side own ms) (hi : Entering side o own ms)
    (hform : o.orderForm = orderFormMarketPrice) :
    ∃ res, Worked side o own ms res ∧ ∀ n, ms.length + 2 ≤ n →
      marketLoop side (marketFillDelta side) o.trustOrderNo (gearOf o) n
        (ofSides side (place side o own) ms) [] 0 = some res := by
  have hfok : o.orderForm ≠ orderFormFok := by rw [hform]; decide
  -- The order comes first, or there is one in front of it.
  have hfirst : (∀ x ∈ own, rank side o < rank side x) → ∃ res, Worked side o own ms res ∧
      ∀ n, ms.length + 2 ≤ n → marketLoop side (marketFillDelta side) o.trustOrderNo (gearOf o) n
        (ofSides side (place side o own) ms) [] 0 = some res := by
    intro hlt
    have hgear := gearOf_pos o
    have hcap : some (gearOf o).toNat ≠ some 0 := by simpa using hgear
    have h0 : (0 : Int) = gearOf o - ((gearOf o).toNat : Int) := by omega
    obtain ⟨out, hend, hout⟩ := (takerLoop_market side own hgear hform).ends hfok ms []
      (Option.some_ne_none _) rfl (hi.ahead hs hlt) hcap
    obtain ⟨res, hres, rfl⟩ := hend.worked_revoke fun _ _ _ _ => ⟨_, rfl⟩
    refine ⟨res, hres, fun n hn => ?_⟩
    rw [place_eq_cons hlt, ← hout n hn, marketLoopAt, Option.getD_some, ← h0]
  cases own with
  | nil => exact hfirst (by simp)
  | cons a own =>
      rcases lt_or_ge (rank side o) (rank side a) with hlt | hge
      · refine hfirst fun x hx => ?_
        rcases List.mem_cons.mp hx with rfl | hx
        · exact hlt
        · exact hlt.trans (hs.sorted.head_lt x hx)
      · have hne := rank_ne side (hi.own_ne a (List.mem_cons_self ..))
        have hlt := lt_of_le_of_ne hge hne
        by_cases hms : ms = []
        · refine ⟨_, .revoked o (remaining o) "market_empty", enough_of_succ fun n => ?_⟩
          rw [marketLoop_behind hs hi hlt, if_pos hms]
        by_cases hf : a.orderForm = orderFormMarketPrice
        · refine ⟨_, .revoked o (remaining o) "market_blocked", enough_of_succ fun n => ?_⟩
          rw [marketLoop_behind hs hi hlt, if_neg hms, if_pos hf]
        · -- The order in front does not cross, so the order behind it does not.
          refine ⟨_, .placed fun b hb => ?_, enough_of_succ fun n => by
            rw [marketLoop_behind hs hi hlt, if_neg hms, if_neg hf]⟩
          have hab := Side.crosses_eq_false.mp (hs.apart a (List.mem_cons_self ..) b hb)
          have hle := signed_le_of_rank_lt hlt
          rw [Side.crosses_eq_false]
          linarith

/-- An order as it enters the book: a market buy gets its price. -/
def entered (side : Side) (o : BbOrder) : BbOrder :=
  if o.orderForm = orderFormMarketPrice then marketPriced side o else o

/-- The loop an order starts once it is in the book, with a budget of
iterations. -/
def orderLoop (side : Side) (o : BbOrder) (n : Nat) (book : OrderBook) : Outcome :=
  if Engine.isHeightOrderForm o.orderForm then
    heightLoop side (pushRatherThan side) (fokHandle side) o.orderForm o.trustOrderNo o.trustPrice
      n book []
  else if o.orderForm = orderFormMarketPrice then
    marketLoop side (marketFillDelta side) o.trustOrderNo (gearOf o) n book [] 0
  else matchLimitLoop (pushRatherThan side) n book []

/-- The engine inserts an order and runs its loop. -/
theorem onBook_eq_orderLoop {book : OrderBook} (hside : Side.fromOrderType o.orderType = some side)
    (hrev : isRevoke o = false) (hfresh : book.containsOrderNo o.trustOrderNo = false) :
    Engine.onBook book o = withInserted book (entered side o) fun book =>
      orderLoop side o (loopBudget book) book := by
  rw [onBook_dispatch hside hrev hfresh]
  by_cases hheight : Engine.isHeightOrderForm o.orderForm = true
  · have hm : o.orderForm ≠ orderFormMarketPrice := by
      intro h
      rw [h] at hheight
      exact absurd hheight (by decide)
    simp only [orderLoop, entered, if_pos hheight, if_neg hm]
  · by_cases hm : o.orderForm = orderFormMarketPrice
    · simp only [orderLoop, entered, if_neg hheight, if_pos hm]
    · simp only [orderLoop, entered, if_neg hheight, if_neg hm]

omit [DecimalRounding] in
theorem Entering.entered (hi : Entering side o own ms) :
    Entering side (entered side o) own ms := by
  unfold MatchCore.entered marketPriced
  split
  · cases side <;> exact ⟨hi.code, hi.fresh⟩
  · exact hi

/-- The loop of an order returns with two iterations more than there are makers,
and with every larger budget alike. -/
theorem orderLoop_worked (hs : SidesApart side own ms) (hi : Entering side o own ms) :
    ∃ res, Worked side (entered side o) own ms res ∧ ∀ n, ms.length + 2 ≤ n →
      orderLoop side o n (ofSides side (place side (entered side o) own) ms) = some res := by
  by_cases hm : o.orderForm = orderFormMarketPrice
  · have hheight : ¬ Engine.isHeightOrderForm o.orderForm = true := by
      rw [hm]
      decide
    have hform : (marketPriced side o).orderForm = orderFormMarketPrice := by
      cases side <;> exact hm
    have hi' := hi.entered
    simp only [orderLoop, if_neg hheight, if_pos hm, entered] at hi' ⊢
    obtain ⟨res, hres, hloop⟩ := marketLoop_worked hs hi' hform
    refine ⟨res, hres, fun n hn => ?_⟩
    rw [← hloop n hn]
    cases side <;> rfl
  · simp only [orderLoop, if_neg hm, entered]
    by_cases hpo : o.orderForm = orderFormPostOnly
    · simp only [hpo, if_pos (show Engine.isHeightOrderForm orderFormPostOnly = true by decide)]
      exact heightLoop_postOnly_worked hs hi
    by_cases hioc : o.orderForm = orderFormIoc
    · simp only [hioc, if_pos (show Engine.isHeightOrderForm orderFormIoc = true by decide)]
      exact heightLoop_ioc_worked hs hi (by rw [hioc]; decide)
    by_cases hfok : o.orderForm = orderFormFok
    · simp only [hfok, if_pos (show Engine.isHeightOrderForm orderFormFok = true by decide)]
      exact heightLoop_fok_worked hs hi
    have hheight : ¬ Engine.isHeightOrderForm o.orderForm = true := by
      simp [Engine.isHeightOrderForm, hpo, hioc, hfok]
    simp only [if_neg hheight]
    exact matchLimitLoop_worked hs hi hfok

end Orders

/-! ## Books of any orders -/

/-- The invariant of a book whatever the quantities are. -/
def BookApart (book : OrderBook) : Prop := SidesApart .buy book.buys book.sells

theorem BookApart.sides {book : OrderBook} (h : BookApart book) (side : Side) :
    SidesApart side (book.entries side) (book.entries side.opp) := by
  cases side with
  | buy => exact h
  | sell => exact h.symm

theorem bookApart_ofSides {side : Side} {own opp : List BbOrder} (h : SidesApart side own opp) :
    BookApart (ofSides side own opp) := by
  cases side with
  | buy => exact h
  | sell => exact h.symm

/-- A revoke leaves a part of one side. -/
theorem BookApart.revoke {book : OrderBook} (h : BookApart book) (o : BbOrder) :
    BookApart (revokeOrder book o).2 := by
  cases hside : Side.fromOrderType o.orderType with
  | none =>
      rw [revokeOrder, revokeOrderWithReason, hside]
      exact h
  | some side =>
      obtain ⟨l, hl, he⟩ := book.removeByOrderNo_sublist side o.trustOrderNo
      have hbook : (revokeOrder book o).2 = (book.removeByOrderNo side o.trustOrderNo).2 := by
        rw [revokeOrder, revokeOrderWithReason, hside]
        cases hrem : book.removeByOrderNo side o.trustOrderNo with
        | mk found left => cases found <;> simp [hrem]
      rw [hbook, he, setEntries_eq_ofSides]
      exact bookApart_ofSides ((h.sides side).shrink (hl.map _) (List.Sublist.refl _))

section Worked

variable {side : Side} {o : BbOrder} {own ms : List BbOrder} {res : OrderBook × List MatchEvent}

/-- So does an order of any quantity leave the invariant. -/
theorem Worked.bookApart (h : Worked side o own ms res) (hs : SidesApart side own ms)
    (hi : Entering side o own ms) : BookApart res.1 := by
  cases h with
  | gone revoke ht => exact bookApart_ofSides (hs.shrink (List.Sublist.refl _) ht.terms_sublist)
  | @rests fs ms' t ht hterms hap =>
      have hs' := hs.shrink (List.Sublist.refl (own.map terms)) ht.terms_sublist
      refine bookApart_ofSides (hs'.place ?_ (fun x hx => ?_) ?_)
      · rw [orderType_of_terms hterms]
        exact hi.code
      · rw [trustOrderNo_of_terms hterms]
        rcases List.mem_append.mp hx with hx | hx
        · exact hi.own_ne x hx
        · obtain ⟨m, hm, htm⟩ := ht.exists_old hx
          rw [← trustOrderNo_of_terms htm]
          exact hi.opp_ne m hm
      · rw [trustPrice_of_terms hterms]
        exact hap

theorem fillsOf_fills (fs : List FillEvent) : fillsOf (fs.map .fill) = fs := by
  induction fs with
  | nil => rfl
  | cons f fs ih => exact congrArg (f :: ·) ih

theorem revokesOf_fills (fs : List FillEvent) : revokesOf (fs.map .fill) = [] := by
  induction fs with
  | nil => rfl
  | cons f fs ih => exact ih

/-- The fills and the makers they leave, with at most one revoke. -/
theorem Worked.taken (h : Worked side o own ms res) :
    ∃ own' ms', res.1 = ofSides side own' ms' ∧ Taken ms (fillsOf res.2) ms' ∧
      (∀ x ∈ own', x ∈ own ∨ x.trustOrderNo = o.trustOrderNo) ∧
      (revokesOf res.2).length ≤ 1 := by
  cases h with
  | @gone fs ms' revoke ht =>
      have hfills : fillsOf (fs.map .fill ++ (revoke.map .revoke).toList) = fs := by
        rw [fillsOf_append, fillsOf_fills]
        cases revoke <;> simp [fillsOf]
      refine ⟨own, ms', rfl, by rwa [hfills], fun x hx => Or.inl hx, ?_⟩
      rw [revokesOf_append, revokesOf_fills]
      cases revoke <;> simp [revokesOf]
  | @rests fs ms' t ht hterms _ =>
      refine ⟨_, ms', rfl, by rwa [fillsOf_fills], fun x hx => ?_, by simp [revokesOf_fills]⟩
      rcases mem_place.mp hx with rfl | hx
      · exact Or.inr (trustOrderNo_of_terms hterms)
      · exact Or.inl hx

end Worked

/-! ## Calls -/

/-- The work of a call, with the book before and after. -/
structure BoundedWork [DecimalRounding] (o : BbOrder) (before after : OrderBook)
    (evs : List MatchEvent) : Prop where
  /-- An order that is new to the book: its loop returns all this with two
  iterations more than there are orders on the other side. -/
  iterations : ∀ {side}, Side.fromOrderType o.orderType = some side → isRevoke o = false →
    before.containsOrderNo o.trustOrderNo = false →
    ∀ n, (before.entries side.opp).length + 2 ≤ n →
      orderLoop side o n (before.insert (entered side o)).2 = some (after, evs)
  /-- The fills are with the orders of the other side, from the best one on. -/
  makers : ∀ {side}, Side.fromOrderType o.orderType = some side →
    (fillsOf evs).map (·.makerOrderNo) <+: (before.entries side.opp).map (·.trustOrderNo)
  /-- No two are with one order. -/
  once : ((fillsOf evs).map (·.makerOrderNo)).Nodup
  /-- Each but the last takes its order off the book. -/
  removed : ∀ f ∈ (fillsOf evs).dropLast, ∀ side, ∀ x ∈ after.entries side,
    x.trustOrderNo ≠ f.makerOrderNo
  /-- There is at most one revoke. -/
  revokes : (revokesOf evs).length ≤ 1
  /-- An order without a side does nothing. -/
  unsided : Side.fromOrderType o.orderType = none → after = before ∧ evs = []

section Calls

variable [DecimalRounding] {book : OrderBook} {o : BbOrder}

/-- A call that runs no loop has no fills. -/
theorem BoundedWork.of_no_fills {after : OrderBook} {evs : List MatchEvent}
    (hloop : ∀ side, Side.fromOrderType o.orderType = some side → isRevoke o = false →
      book.containsOrderNo o.trustOrderNo = true)
    (hfills : fillsOf evs = []) (hrev : (revokesOf evs).length ≤ 1)
    (hside : Side.fromOrderType o.orderType = none → after = book ∧ evs = []) :
    BoundedWork o book after evs where
  iterations {side} hs hr hc := by
    rw [hloop side hs hr] at hc
    cases hc
  makers _ := by simp [hfills]
  once := by simp [hfills]
  removed := by simp [hfills]
  revokes := hrev
  unsided := hside

/-- A request to revoke. -/
theorem boundedWork_revoke (hrev : isRevoke o = true) :
    BoundedWork o book (revokeOrder book o).2 (revokeOrder book o).1.toList := by
  refine .of_no_fills (fun _ _ h => ?_) (fillsOf_revokeOrder book o) ?_ fun hside => ?_
  · rw [hrev] at h
    cases h
  · refine (List.length_filterMap_le ..).trans ?_
    cases (revokeOrder book o).1 <;> simp
  · rw [revokeOrder, revokeOrderWithReason, hside]
    exact ⟨rfl, rfl⟩

/-- An order that is new to the book. -/
theorem boundedWork_new (hinv : BookApart book) {side : Side}
    (hside : Side.fromOrderType o.orderType = some side) (hrev : isRevoke o = false)
    (hfresh : book.containsOrderNo o.trustOrderNo = false) :
    ∃ after evs, Engine.onBook book o = some (after, evs) ∧ BookApart after ∧
      BoundedWork o book after evs := by
  have hs := hinv.sides side
  have hi : Entering side o (book.entries side) (book.entries side.opp) := by
    refine ⟨hside, ?_⟩
    rwa [← containsOrderNo_ofSides side, ofSides_entries]
  obtain ⟨⟨after, evs⟩, hres, hloop⟩ := orderLoop_worked hs hi
  have hins : book.insert (entered side o) = (true, ofSides side
      (place side (entered side o) (book.entries side)) (book.entries side.opp)) := by
    rw [← hi.entered.insert, ofSides_entries]
  obtain ⟨own', ms', hafter, htaken, hown, hrevokes⟩ := hres.taken
  have hd := hs.oppSorted.nodup
  refine ⟨after, evs, ?_, hres.bookApart hs hi.entered, ?_, ?_, ?_, ?_, hrevokes, ?_⟩
  · rw [onBook_eq_orderLoop hside hrev hfresh, withInserted, hins]
    exact hloop _ (loopBudget_ofSides ..)
  · intro side' hside' _ _ n hn
    obtain rfl : side = side' := Option.some.inj (hside.symm.trans hside')
    rw [hins]
    exact hloop n hn
  · intro side' hside'
    obtain rfl : side = side' := Option.some.inj (hside.symm.trans hside')
    exact htaken.makers_initial
  · exact hd.sublist htaken.makers_initial.sublist
  · -- A maker that was taken off is not on the taker's side either.
    intro f hf s x hx
    have hmaker : f.makerOrderNo ∈ (book.entries side.opp).map (·.trustOrderNo) :=
      htaken.makers_initial.subset (List.mem_map_of_mem (List.mem_of_mem_dropLast hf))
    obtain ⟨m, hm, hmno⟩ := List.mem_map.mp hmaker
    simp only at hafter
    rw [hafter] at hx
    rcases Side.eq_or_eq_opp side s with rfl | rfl
    · rw [entries_ofSides] at hx
      rw [← hmno]
      rcases hown x hx with hx | hx
      · exact hs.distinct x hx m hm
      · rw [hx]
        exact (hi.entered.opp_ne m hm).symm
    · rw [entries_ofSides_opp] at hx
      exact htaken.removed hd f hf x hx
  · intro hnone
    rw [hside] at hnone
    cases hnone

/-- Every call returns with bounded work and keeps the sides apart. -/
theorem onBook_bounded (hinv : BookApart book) (o : BbOrder) :
    ∃ after evs, Engine.onBook book o = some (after, evs) ∧ BookApart after ∧
      BoundedWork o book after evs := by
  cases hrev : isRevoke o with
  | true =>
      exact ⟨_, _, by rw [Engine.onBook, if_pos hrev], hinv.revoke o, boundedWork_revoke hrev⟩
  | false =>
      cases hc : book.containsOrderNo o.trustOrderNo with
      | true =>
          refine ⟨_, _, ?_, hinv, .of_no_fills (fun _ _ _ => hc) rfl (by simp) fun _ => ⟨rfl, rfl⟩⟩
          simp [Engine.onBook, hrev, hc]
      | false =>
          cases hside : Side.fromOrderType o.orderType with
          | none =>
              refine ⟨_, _, onBook_unsided hside hrev, hinv,
                .of_no_fills (fun side hs => ?_) rfl (by simp) fun _ => ⟨rfl, rfl⟩⟩
              rw [hside] at hs
              cases hs
          | some side => exact boundedWork_new hinv hside hrev hc

/-- A call on an engine. -/
theorem onOrder_bounded {engine : Engine} (hinv : ∀ symbol, BookApart (engine.books symbol))
    (o : BbOrder) :
    ∃ next evs, engine.onOrder o = some (next, evs) ∧ (∀ symbol, BookApart (next.books symbol)) ∧
      BoundedWork o (engine.books o.symbolKey) (next.books o.symbolKey) evs := by
  obtain ⟨after, evs, hon, hafter, hwork⟩ := onBook_bounded (hinv o.symbolKey) o
  refine ⟨_, evs, onOrder_eq hon, fun symbol => ?_, ?_⟩
  · by_cases hs : symbol = o.symbolKey
    · subst hs
      simpa using hafter
    · simpa [Function.update_of_ne hs] using hinv symbol
  · simpa using hwork

/-- Calls with any orders return and keep the sides of every book apart. -/
theorem run_apart (os : List BbOrder) : ∀ {engine : Engine},
    (∀ symbol, BookApart (engine.books symbol)) →
      ∃ last, engine.run os = some last ∧ ∀ symbol, BookApart (last.books symbol) := by
  induction os with
  | nil => exact fun {engine} h => ⟨engine, rfl, h⟩
  | cons o os ih =>
      intro engine h
      obtain ⟨next, evs, hon, hnext, -⟩ := onOrder_bounded h o
      obtain ⟨last, hrun, hlast⟩ := ih hnext
      exact ⟨last, by rw [Engine.run, hon]; exact hrun, hlast⟩

/-- On every book that calls lead to, every call returns with bounded work. -/
theorem loops_bounded (os : List BbOrder) :
    ∃ engine, Engine.run {} os = some engine ∧ ∀ o, ∃ next evs,
      engine.onOrder o = some (next, evs) ∧
        BoundedWork o (engine.books o.symbolKey) (next.books o.symbolKey) evs := by
  have hnew : ∀ symbol, BookApart (({} : Engine).books symbol) := fun _ => SidesApart.nil
  obtain ⟨engine, hrun, hinv⟩ := run_apart os hnew
  refine ⟨engine, hrun, fun o => ?_⟩
  obtain ⟨next, evs, hon, -, hwork⟩ := onOrder_bounded hinv o
  exact ⟨next, evs, hon, hwork⟩

end Calls

end MatchCore
