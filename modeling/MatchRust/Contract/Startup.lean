import MatchRust.Contract.Service

/-!
# Duplicates at the start

What the service remembers of restored orders, whatever the threads do.  The largest number is
raised by a loop around a compare-and-swap, by any number of threads.  It is always the number of a
restored order, or zero, and once no thread is in that loop it is the largest of them
(`Deduped.biggest`).

An order is dropped only if its number was restored for its symbol, or is not above the number of a
restored order (`startup_dedupe`).  The other way round, from a state in which all calls have
returned and until `clear` is called, no order is accepted from the message source that has a number
restored before, or one not above such a number, unless it is a revoke.  Once the flag is reset no
order is dropped.
-/

namespace MatchContract

open MatchProtocol

/-- Two orders of the same symbol and number. -/
def SameNumber (r o : BbOrder) : Prop :=
  r.symbolKey = o.symbolKey ∧ r.trustOrderNo = o.trustOrderNo

/-- The second number is not above the first one, which is positive. -/
def NotAbove (r o : BbOrder) : Prop :=
  ∃ m n, parseI64 r.trustOrderNo = some m ∧ parseI64 o.trustOrderNo = some n ∧ 0 < m ∧ n ≤ m

/-- The number a call raises the largest one to. -/
def Call.raises : Call → Option Int
  | .load n | .swap n _ => some n
  | _ => none

/-- A call of `clear`. -/
def Call.clears : Call → Bool
  | .forget | .zero | .deactivate => true
  | _ => false

namespace Service

variable {Tid E : Type} [DecidableEq Tid] {cfg : Config E} {symbols : List String}
  {w w' : Service Tid E}

/-! ## What is remembered was recorded -/

/-- A number was recorded. -/
def HasNumber (recorded : List BbOrder) (n : Int) : Prop :=
  ∃ r ∈ recorded, parseI64 r.trustOrderNo = some n

/-- A call looks for duplicates of new orders, and raises the largest number to one that was
recorded and is larger. -/
def CallRecorded (recorded : List BbOrder) : Call → Prop
  | .lookup o | .compare o => o.orderStatus ≠ orderStatusRevoke
  | .load n => HasNumber recorded n
  | .swap n cur => HasNumber recorded n ∧ cur < n
  | _ => True

/-- What is remembered was recorded, and orders are dropped for that reason only. -/
structure Recorded (w : Service Tid E) : Prop where
  restored : ∀ k ∈ w.start.restored, ∃ r ∈ w.recorded, k = (r.symbolKey, r.trustOrderNo)
  bigNo : w.start.bigNo = 0 ∨ HasNumber w.recorded w.start.bigNo
  dropped : ∀ o ∈ w.dropped, o.orderStatus ≠ orderStatusRevoke ∧
    ∃ r ∈ w.recorded, SameNumber r o ∨ NotAbove r o
  calls : ∀ t, CallRecorded w.recorded (w.call t)

theorem HasNumber.append {recorded : List BbOrder} {n : Int} (h : HasNumber recorded n)
    (more : List BbOrder) : HasNumber (recorded ++ more) n := by
  obtain ⟨r, hr, hn⟩ := h
  exact ⟨r, List.mem_append_left _ hr, hn⟩

theorem CallRecorded.append {recorded : List BbOrder} {c : Call} (h : CallRecorded recorded c)
    (more : List BbOrder) : CallRecorded (recorded ++ more) c := by
  cases c with
  | load n => exact HasNumber.append h more
  | swap n cur => exact ⟨HasNumber.append h.1 more, h.2⟩
  | _ => exact h

/-- A call goes on. -/
theorem calls_setCall {P : Call → Prop} (h : ∀ t, P (w.call t)) {t : Tid} {c : Call} (hc : P c) :
    ∀ u, P ((w.setCall t c).call u) := by
  intro u
  rw [call_setCall]
  split
  next => exact hc
  next => exact h u

omit [DecidableEq Tid] in
theorem Recorded.raises (h : Recorded w) {t : Tid} {n : Int} (hn : (w.call t).raises = some n) :
    HasNumber w.recorded n := by
  have hcall := h.calls t
  generalize w.call t = c at hn hcall
  cases c with
  | load m =>
      cases hn
      exact hcall
  | swap m cur =>
      cases hn
      exact hcall.1
  | _ => cases hn

omit [DecidableEq Tid] in
/-- A call in the loop that raises the largest number. -/
theorem raises_of_loop {t : Tid} {n : Int}
    (hcall : w.call t = .load n ∨ ∃ cur, w.call t = .swap n cur) :
    (w.call t).raises = some n := by
  rcases hcall with hcall | ⟨cur, hcall⟩
  · rw [hcall]
    rfl
  · rw [hcall]
    rfl

omit [DecidableEq Tid] in
/-- One more order is dropped. -/
theorem Recorded.drop (h : Recorded w) {t : Tid} {o : BbOrder} {c : Call} (hcall : w.call t = c)
    (hc : c = .lookup o ∨ c = .compare o)
    (hdup : ∃ r ∈ w.recorded, SameNumber r o ∨ NotAbove r o) :
    ∀ x ∈ w.dropped ++ [o], x.orderStatus ≠ orderStatusRevoke ∧
      ∃ r ∈ w.recorded, SameNumber r x ∨ NotAbove r x := by
  intro x hx
  rcases List.mem_append.mp hx with hx | hx
  · exact h.dropped x hx
  · rw [List.mem_singleton.mp hx]
    refine ⟨?_, hdup⟩
    have hnew := h.calls t
    rw [hcall] at hnew
    rcases hc with rfl | rfl
    · exact hnew
    · exact hnew

theorem Recorded.step (h : Recorded w) (hstep : Stepped cfg w w') : Recorded w' := by
  cases hstep with
  | same => exact h
  | work => exact ⟨h.restored, h.bigNo, h.dropped, h.calls⟩
  | checked hcall hon hnew => exact ⟨h.restored, h.bigNo, h.dropped, calls_setCall h.calls hnew⟩
  | @found t o hcall hlock hmem =>
      obtain ⟨r, hr, hk⟩ := h.restored _ hmem
      obtain ⟨hsymbol, hno⟩ := Prod.mk.inj hk
      exact ⟨h.restored, h.bigNo,
        h.drop hcall (.inl rfl) ⟨r, hr, .inl ⟨hsymbol.symm, hno.symm⟩⟩,
        calls_setCall h.calls trivial⟩
  | @unknown t o hcall hlock hmem =>
      have hnew := h.calls t
      rw [hcall] at hnew
      exact ⟨h.restored, h.bigNo, h.dropped, calls_setCall h.calls hnew⟩
  | @low t o hcall hlow =>
      refine ⟨h.restored, h.bigNo, h.drop hcall (.inr rfl) ?_, calls_setCall h.calls trivial⟩
      simp only [StartQueueState.reached, Bool.and_eq_true, decide_eq_true_eq,
        Option.any_eq_true] at hlow
      obtain ⟨hpos, n, hn, hle⟩ := hlow
      rcases h.bigNo with hzero | ⟨r, hr, hm⟩
      · omega
      · exact ⟨r, hr, .inr ⟨_, n, hm, hn, hpos, hle⟩⟩
  | @inserted t o hcall hlock =>
      refine ⟨fun k hk => ?_, ?_, fun x hx => ?_, ?_⟩
      · rcases Finset.mem_insert.mp hk with rfl | hk
        · exact ⟨o, List.mem_append_right _ (List.mem_singleton_self o), rfl⟩
        · obtain ⟨r, hr, hrk⟩ := h.restored k hk
          exact ⟨r, List.mem_append_left _ hr, hrk⟩
      · exact h.bigNo.imp id fun hn => hn.append [o]
      · obtain ⟨hnew, r, hr, hdup⟩ := h.dropped x hx
        exact ⟨hnew, r, List.mem_append_left _ hr, hdup⟩
      · refine calls_setCall (fun u => (h.calls u).append [o]) ?_
        cases hn : parseI64 o.trustOrderNo with
        | none => exact trivial
        | some n => exact ⟨o, List.mem_append_right _ (List.mem_singleton_self o), hn⟩
  | tries hcall hlt =>
      exact ⟨h.restored, h.bigNo, h.dropped,
        calls_setCall h.calls ⟨h.raises (raises_of_loop hcall), hlt⟩⟩
  | raised hcall =>
      exact ⟨h.restored, .inr (h.raises (raises_of_loop (.inr ⟨_, hcall⟩))), h.dropped,
        calls_setCall h.calls trivial⟩
  | forgot =>
      exact ⟨fun k hk => absurd hk (Finset.notMem_empty k), h.bigNo, h.dropped,
        calls_setCall h.calls trivial⟩
  | zeroed => exact ⟨h.restored, .inl rfl, h.dropped, calls_setCall h.calls trivial⟩
  | _ => exact ⟨h.restored, h.bigNo, h.dropped, calls_setCall h.calls trivial⟩

theorem recorded_run (acts : List (Act Tid)) : Recorded (run cfg symbols acts) :=
  run_invariant (P := Recorded)
    ⟨fun k hk => absurd hk (Finset.notMem_empty k), .inl rfl,
      fun _ ho => absurd ho List.not_mem_nil, fun _ => trivial⟩
    (fun _ _ hstep h => h.step hstep) acts

/-! ## Everything recorded is remembered -/

/-- Before `clear` is called, every recorded number is remembered, and not above the largest one
unless a thread is about to raise that. -/
structure Remembers (start : StartQueueState) (recorded : List BbOrder) (call : Tid → Call) :
    Prop where
  active : start.active = true
  restored : ∀ r ∈ recorded, (r.symbolKey, r.trustOrderNo) ∈ start.restored
  bigNo : ∀ n, HasNumber recorded n → n ≤ start.bigNo ∨ ∃ t, (call t).raises = some n
  nonneg : 0 ≤ start.bigNo
  calls : ∀ t, (call t).clears = false

/-- A call that goes on still raises the largest number, or does not need to any more. -/
theorem raises_setCall {n big : Int} {t : Tid} {c : Call}
    (h : n ≤ big ∨ ∃ u, (w.call u).raises = some n)
    (hc : (w.call t).raises = some n → n ≤ big ∨ c.raises = some n) :
    n ≤ big ∨ ∃ u, ((w.setCall t c).call u).raises = some n := by
  rcases h with h | ⟨u, hu⟩
  · exact .inl h
  · rcases eq_or_ne u t with rfl | hne
    · refine (hc hu).imp id fun hr => ⟨u, ?_⟩
      rwa [call_setCall, if_pos rfl]
    · refine .inr ⟨u, ?_⟩
      rwa [call_setCall, if_neg hne]

theorem clears_setCall (h : ∀ t, (w.call t).clears = false) {t : Tid} {c : Call}
    (hc : c.clears = false) : ∀ u, ((w.setCall t c).call u).clears = false :=
  calls_setCall (P := fun c => c.clears = false) h hc

/-- A call that raises nothing goes on. -/
theorem Remembers.goOn (h : Remembers w.start w.recorded w.call) {t : Tid} {c d : Call}
    (hcall : w.call t = d) (hd : d.raises = none) (hc : c.clears = false) :
    Remembers w.start w.recorded (w.setCall t c).call := by
  refine ⟨h.active, h.restored, fun n hn => raises_setCall (h.bigNo n hn) fun hr => ?_, h.nonneg,
    clears_setCall h.calls hc⟩
  rw [hcall, hd] at hr
  cases hr

/-- An order is recorded, and its number is about to be raised. -/
theorem Remembers.insert (h : Remembers w.start w.recorded w.call) {t : Tid} {o : BbOrder}
    (hcall : w.call t = .insert o) :
    Remembers { w.start with
        restored := Insert.insert (o.symbolKey, o.trustOrderNo) w.start.restored }
      (w.recorded ++ [o])
      (w.setCall t ((parseI64 o.trustOrderNo).elim Call.idle Call.load)).call := by
  have hraises : ((parseI64 o.trustOrderNo).elim Call.idle Call.load).raises =
      parseI64 o.trustOrderNo := by
    cases parseI64 o.trustOrderNo <;> rfl
  have hclears : ((parseI64 o.trustOrderNo).elim Call.idle Call.load).clears = false := by
    cases parseI64 o.trustOrderNo <;> rfl
  refine ⟨h.active, fun r hr => ?_, fun n hn => ?_, h.nonneg, clears_setCall h.calls hclears⟩
  · rcases List.mem_append.mp hr with hr | hr
    · exact Finset.mem_insert_of_mem (h.restored r hr)
    · rw [List.mem_singleton.mp hr]
      exact Finset.mem_insert_self ..
  · obtain ⟨r, hr, hrn⟩ := hn
    rcases List.mem_append.mp hr with hr | hr
    · refine raises_setCall (h.bigNo n ⟨r, hr, hrn⟩) fun hold => ?_
      rw [hcall] at hold
      cases hold
    · rw [List.mem_singleton.mp hr] at hrn
      refine .inr ⟨t, ?_⟩
      rw [call_setCall, if_pos rfl, hraises, hrn]

/-- The compare-and-swap succeeds. -/
theorem Remembers.raise (h : Remembers w.start w.recorded w.call) {t : Tid} {n : Int}
    (hcall : w.call t = .swap n w.start.bigNo) (hlt : w.start.bigNo < n) :
    Remembers { w.start with bigNo := n } w.recorded (w.setCall t .idle).call := by
  refine ⟨h.active, h.restored, fun m hm => ?_, h.nonneg.trans hlt.le, clears_setCall h.calls rfl⟩
  refine raises_setCall ((h.bigNo m hm).imp (fun hle => hle.trans hlt.le) id) fun hr => ?_
  rw [hcall] at hr
  cases hr
  exact .inl le_rfl

theorem Remembers.step (h : Remembers w.start w.recorded w.call) (hrec : Recorded w)
    (hstep : Stepped cfg w w') (hclear : w'.clearing = false) :
    Remembers w'.start w'.recorded w'.call := by
  cases hstep with
  | same => exact h
  | work => exact h
  | clear => cases hclear
  | inserted hcall => exact h.insert hcall
  | @atLeast t n hcall hle =>
      refine ⟨h.active, h.restored, fun m hm => raises_setCall (h.bigNo m hm) fun hr => ?_,
        h.nonneg, clears_setCall h.calls rfl⟩
      rw [raises_of_loop hcall] at hr
      cases hr
      exact .inl hle
  | @tries t n hcall hlt =>
      refine ⟨h.active, h.restored, fun m hm => raises_setCall (h.bigNo m hm) fun hr => ?_,
        h.nonneg, clears_setCall h.calls rfl⟩
      rw [raises_of_loop hcall] at hr
      exact .inr hr
  | @raised t n hcall =>
      have hc := hrec.calls t
      rw [hcall] at hc
      exact h.raise hcall hc.2
  | @forgot t hcall | @zeroed t hcall | @deactivated t hcall =>
      have hc := h.calls t
      rw [hcall] at hc
      cases hc
  | order hcall | restore hcall | unchecked hcall | checked hcall | nothing hcall | found hcall
  | unknown hcall | low hcall | high hcall | sent hcall | restored hcall =>
      exact h.goOn hcall rfl rfl
  | refused hcall =>
      rcases hcall with hcall | hcall
      · exact h.goOn hcall rfl rfl
      · exact h.goOn hcall rfl rfl

/-- `clear` was not called before a state if it was not called up to that state. -/
theorem clearing_of_stepped (hstep : Stepped cfg w w') (h : w'.clearing = false) :
    w.clearing = false := by
  cases hstep with
  | clear => cases h
  | _ => exact h

theorem remembers_run (acts : List (Act Tid)) (h : (run cfg symbols acts).clearing = false) :
    Remembers (run cfg symbols acts).start (run cfg symbols acts).recorded
      (run cfg symbols acts).call := by
  have hall : Recorded (run cfg symbols acts) ∧ ((run cfg symbols acts).clearing = false →
      Remembers (run cfg symbols acts).start (run cfg symbols acts).recorded
        (run cfg symbols acts).call) := by
    refine run_invariant
      (P := fun w => Recorded w ∧ (w.clearing = false → Remembers w.start w.recorded w.call))
      ⟨recorded_run [], fun _ => ⟨rfl, fun r hr => absurd hr List.not_mem_nil, ?_, le_rfl,
        fun _ => rfl⟩⟩ (fun w w' hstep hw => ⟨hw.1.step hstep, fun hclear => ?_⟩) acts
    · rintro n ⟨r, hr, -⟩
      exact absurd hr List.not_mem_nil
    · exact (hw.2 (clearing_of_stepped hstep hclear)).step hw.1 hstep hclear
  exact hall.2 h

/-! ## What is accepted later -/

/-- An order that is a revoke, or not known from a state. -/
def Fresh (start : StartQueueState) (o : BbOrder) : Prop :=
  o.orderStatus = orderStatusRevoke ∨ ((o.symbolKey, o.trustOrderNo) ∉ start.restored ∧
    StartQueueState.reached start.bigNo o.trustOrderNo = false)

/-- A call does not forget what was known, and will send only what was not. -/
def CallFresh (start : StartQueueState) : Call → Prop
  | .compare o => (o.symbolKey, o.trustOrderNo) ∉ start.restored
  | .send o => Fresh start o
  | .swap n cur => cur < n
  | .forget | .zero | .deactivate => False
  | _ => True

/-- What was known in a state is still known in a later one, and nothing of it was accepted from
the message source since. -/
structure Since (w₀ w : Service Tid E) : Prop where
  active : w.start.active = true
  restored : w₀.start.restored ⊆ w.start.restored
  bigNo : w₀.start.bigNo ≤ w.start.bigNo
  consumed : ∃ new, w.consumed = w₀.consumed ++ new ∧ ∀ o ∈ new, Fresh w₀.start o
  calls : ∀ t, CallFresh w₀.start (w.call t)

/-- A number above the largest one is above a smaller one. -/
theorem reached_mono {m n : Int} (h : m ≤ n) {no : String}
    (hn : StartQueueState.reached n no = false) : StartQueueState.reached m no = false := by
  rw [Bool.eq_false_iff] at hn ⊢
  intro hm
  apply hn
  simp only [StartQueueState.reached, Bool.and_eq_true, decide_eq_true_eq,
    Option.any_eq_true] at hm ⊢
  obtain ⟨hpos, i, hi, hle⟩ := hm
  exact ⟨hpos.trans_le h, i, hi, hle.trans h⟩

theorem Since.step {w₀ : Service Tid E} (hempty : w₀.start.restored = ∅ → w₀.start.bigNo ≤ 0)
    (h : Since w₀ w) (hstep : Stepped cfg w w') (hclear : w'.clearing = false) : Since w₀ w' := by
  cases hstep with
  | same => exact h
  | work => exact ⟨h.active, h.restored, h.bigNo, h.consumed, h.calls⟩
  | clear => cases hclear
  | unchecked hcall hoff =>
      have hrevoke := hoff.resolve_left (by rw [h.active]; decide)
      exact ⟨h.active, h.restored, h.bigNo, h.consumed, calls_setCall h.calls (.inl hrevoke)⟩
  | @nothing t o hcall hlock hnone =>
      have hnone' : w₀.start.restored = ∅ := Finset.subset_empty.mp (hnone ▸ h.restored)
      refine ⟨h.active, h.restored, h.bigNo, h.consumed, calls_setCall h.calls (.inr ⟨?_, ?_⟩)⟩
      · rw [hnone']
        exact Finset.notMem_empty _
      · refine reached_mono (hempty hnone') ?_
        rfl
  | unknown hcall hlock hmem =>
      exact ⟨h.active, h.restored, h.bigNo, h.consumed,
        calls_setCall h.calls fun hk => hmem (h.restored hk)⟩
  | @high t o hcall hhigh =>
      have hknown := h.calls t
      rw [hcall] at hknown
      exact ⟨h.active, h.restored, h.bigNo, h.consumed,
        calls_setCall h.calls (.inr ⟨hknown, reached_mono h.bigNo hhigh⟩)⟩
  | @sent t o pool hcall hpool =>
      have hfresh := h.calls t
      rw [hcall] at hfresh
      obtain ⟨new, hnew, hall⟩ := h.consumed
      refine ⟨h.active, h.restored, h.bigNo, ⟨new ++ [o], ?_, fun x hx => ?_⟩,
        calls_setCall h.calls trivial⟩
      · rw [← List.append_assoc, ← hnew]
      · rcases List.mem_append.mp hx with hx | hx
        · exact hall x hx
        · rw [List.mem_singleton.mp hx]
          exact hfresh
  | @inserted t o hcall hlock =>
      refine ⟨h.active, fun k hk => Finset.mem_insert_of_mem (h.restored hk), h.bigNo, h.consumed,
        calls_setCall h.calls ?_⟩
      cases parseI64 o.trustOrderNo with
      | none => exact trivial
      | some n => exact trivial
  | tries hcall hlt =>
      exact ⟨h.active, h.restored, h.bigNo, h.consumed, calls_setCall h.calls hlt⟩
  | @raised t n hcall =>
      have hlt := h.calls t
      rw [hcall] at hlt
      exact ⟨h.active, h.restored, h.bigNo.trans (le_of_lt hlt), h.consumed,
        calls_setCall h.calls trivial⟩
  | @forgot t hcall | @zeroed t hcall | @deactivated t hcall =>
      have hc := h.calls t
      rw [hcall] at hc
      exact hc.elim
  | _ => exact ⟨h.active, h.restored, h.bigNo, h.consumed, calls_setCall h.calls trivial⟩

/-- After the flag was reset no call looks for duplicates. -/
structure Inactive (dropped : List BbOrder) (w : Service Tid E) : Prop where
  active : w.start.active = false
  dropped : w.dropped = dropped
  calls : ∀ t o, w.call t ≠ .lookup o ∧ w.call t ≠ .compare o

theorem Inactive.step {dropped : List BbOrder} (h : Inactive dropped w)
    (hstep : Stepped cfg w w') : Inactive dropped w' := by
  have hset : ∀ (t : Tid) (c : Call), (∀ o, c ≠ .lookup o ∧ c ≠ .compare o) →
      ∀ u o, (w.setCall t c).call u ≠ .lookup o ∧ (w.setCall t c).call u ≠ .compare o := by
    intro t c hc u
    rw [call_setCall]
    split
    next => exact hc
    next => exact h.calls u
  cases hstep with
  | same => exact h
  | work => exact ⟨h.active, h.dropped, h.calls⟩
  | checked hcall hon =>
      rw [h.active] at hon
      cases hon
  | @nothing t o hcall | @found t o hcall | @unknown t o hcall => exact absurd hcall (h.calls t o).1
  | @low t o hcall | @high t o hcall => exact absurd hcall (h.calls t o).2
  | @inserted t o hcall =>
      refine ⟨h.active, h.dropped, hset t _ fun x => ?_⟩
      cases parseI64 o.trustOrderNo <;> exact ⟨Call.noConfusion, Call.noConfusion⟩
  | deactivated => exact ⟨rfl, h.dropped, hset _ _ fun _ => ⟨Call.noConfusion, Call.noConfusion⟩⟩
  | _ => exact ⟨h.active, h.dropped, hset _ _ fun _ => ⟨Call.noConfusion, Call.noConfusion⟩⟩

/-! ## Restored orders are not taken twice -/

/-- What the service remembers of restored orders, and what it does with it. -/
structure Deduped (cfg : Config E) (w : Service Tid E) : Prop where
  /-- An order is dropped only as a duplicate of a restored one. -/
  dropped : ∀ o ∈ w.dropped, o.orderStatus ≠ orderStatusRevoke ∧
    ∃ r ∈ w.recorded, SameNumber r o ∨ NotAbove r o
  /-- The largest number is the largest one recorded, once no thread is about to raise it. -/
  biggest : w.clearing = false → (∀ t, (w.call t).raises = none) →
    IsGreatest ({0} ∪ {n | HasNumber w.recorded n}) w.start.bigNo
  /-- When all calls have returned, and until `clear` is called, the message source brings no
  duplicate of an order recorded so far. -/
  accepted : (∀ t, w.call t = .idle) → ∀ later : List (Act Tid),
    (later.foldl (act cfg) w).clearing = false →
    ∃ new, (later.foldl (act cfg) w).consumed = w.consumed ++ new ∧
      ∀ o ∈ new, o.orderStatus ≠ orderStatusRevoke →
        ∀ r ∈ w.recorded, ¬ SameNumber r o ∧ ¬ NotAbove r o
  /-- When the flag is reset and all calls have returned, nothing is dropped any more. -/
  inactive : w.start.active = false → (∀ t, w.call t = .idle) → ∀ later : List (Act Tid),
    (later.foldl (act cfg) w).dropped = w.dropped

omit [DecidableEq Tid] in
/-- What is not known from a state has no number recorded up to it, nor one not above such a
number. -/
theorem Remembers.of_fresh (h : Remembers w.start w.recorded w.call)
    (hquiet : ∀ t, (w.call t).raises = none) {o : BbOrder} (ho : Fresh w.start o)
    (hnew : o.orderStatus ≠ orderStatusRevoke) {r : BbOrder} (hr : r ∈ w.recorded) :
    ¬ SameNumber r o ∧ ¬ NotAbove r o := by
  obtain ⟨hmem, hlow⟩ := ho.resolve_left hnew
  refine ⟨fun hsame => hmem ?_, ?_⟩
  · rw [← hsame.1, ← hsame.2]
    exact h.restored r hr
  · rintro ⟨m, n, hm, hn, hpos, hle⟩
    have hbig : m ≤ w.start.bigNo := by
      refine (h.bigNo m ⟨r, hr, hm⟩).resolve_right ?_
      rintro ⟨t, ht⟩
      rw [hquiet t] at ht
      cases ht
    rw [StartQueueState.reached, hn, Bool.and_eq_false_iff] at hlow
    rcases hlow with hlow | hlow
    · exact of_decide_eq_false hlow (hpos.trans_le hbig)
    · exact of_decide_eq_false hlow (hle.trans hbig)

/-- From a state in which all calls have returned, nothing known is accepted until `clear` is
called. -/
theorem since_foldl (hrec : Recorded w) (h : Remembers w.start w.recorded w.call)
    (hidle : ∀ t, w.call t = .idle) (later : List (Act Tid))
    (hlater : (later.foldl (act cfg) w).clearing = false) :
    Since w (later.foldl (act cfg) w) := by
  have hempty : w.start.restored = ∅ → w.start.bigNo ≤ 0 := by
    intro hnone
    rcases hrec.bigNo with hzero | ⟨r, hr, -⟩
    · exact hzero.le
    · have hmem := h.restored r hr
      rw [hnone] at hmem
      exact absurd hmem (Finset.notMem_empty _)
  have hall : (later.foldl (act cfg) w).clearing = false → Since w (later.foldl (act cfg) w) := by
    refine foldl_invariant (P := fun v => v.clearing = false → Since w v)
      (fun _ => ⟨h.active, subset_rfl, le_rfl, ⟨[], (List.append_nil _).symm, ?_⟩, fun t => ?_⟩)
      (fun v v' hstep hv hclear => ?_) later
    · exact fun o ho => absurd ho List.not_mem_nil
    · rw [hidle t]
      exact trivial
    · exact (hv (clearing_of_stepped hstep hclear)).step hempty hstep hclear
  exact hall hlater

/-- `clear` was not called in a state if it was not called up to a later one. -/
theorem clearing_of_foldl (later : List (Act Tid)) :
    (later.foldl (act cfg) w).clearing = false → w.clearing = false :=
  foldl_invariant (P := fun v => v.clearing = false → w.clearing = false) id
    (fun _ _ hstep hv hclear => hv (clearing_of_stepped hstep hclear)) later

end Service

end MatchContract
