import MatchRust.Hp.Journal

/-!
# The journal after a crash

The bytes in front of the cursor are the records accepted so far (`Written`), and no
call writes there again, apart from the header.  A committed cursor, in memory or on the
disk, is a position between two records, with all records in front of it on the disk
(`Anchored`).  A commit moves it only after it waited for the records, and from then
on the disk and the memory agree there, whichever bytes move and whatever is appended.

So after a crash at any point the committed records are read back, and they are the
first of those accepted, with no record missing that a commit has promised
(`crash_consistent`).
-/

namespace MatchCoreHp

open Storage

/-! ## Records in a file -/

/-- These records stand in the file from `off` up to `stop`, at the positions they name. -/
def Written (f : Image) : Nat → List (Nat × List UInt8) → Nat → Prop
  | off, [], stop => off = stop
  | off, (i, payload) :: recs, stop =>
      i = off ∧ payload.length < 2 ^ 32 ∧
        read f off (4 + payload.length) = recordBytes payload ∧
        Written f (off + (payload.length + 4)) recs stop

section Written

variable {f g : Image} {off stop stop' : Nat} {recs recs' : List (Nat × List UInt8)}
  {payload : List UInt8}

@[simp] theorem length_recordBytes (payload : List UInt8) :
    (recordBytes payload).length = 4 + payload.length := by
  simp [recordBytes]

theorem Written.le (h : Written f off recs stop) : off ≤ stop := by
  induction recs generalizing off with
  | nil => exact h.le
  | cons r recs ih =>
      obtain ⟨-, -, -, hrest⟩ := h
      exact Nat.le_trans (Nat.le_add_right ..) (ih hrest)

/-- There are no more records than bytes. -/
theorem Written.length_le (h : Written f off recs stop) : recs.length ≤ stop - off := by
  induction recs generalizing off with
  | nil => exact Nat.zero_le _
  | cons r recs ih =>
      obtain ⟨-, -, -, hrest⟩ := h
      have hlen := ih hrest
      have hle := hrest.le
      rw [List.length_cons]
      omega

/-- Only the bytes of the range matter. -/
theorem Written.congr (h : Written f off recs stop) (hag : Agree g f off stop) :
    Written g off recs stop := by
  induction recs generalizing off with
  | nil => exact h
  | cons r recs ih =>
      obtain ⟨hoff, hsmall, hread, hrest⟩ := h
      have hle := hrest.le
      refine ⟨hoff, hsmall, ?_, ih hrest (hag.mono (by omega) (Nat.le_refl _))⟩
      rw [hag.read_eq (Nat.le_refl _) (by omega), hread]

/-- One more record. -/
theorem Written.snoc (h : Written f off recs stop) (hsmall : payload.length < 2 ^ 32)
    (hread : read f stop (4 + payload.length) = recordBytes payload) :
    Written f off (recs ++ [(stop, payload)]) (stop + (payload.length + 4)) := by
  induction recs generalizing off with
  | nil =>
      cases h
      exact ⟨rfl, hsmall, hread, rfl⟩
  | cons r recs ih =>
      obtain ⟨hoff, hlen, hbytes, hrest⟩ := h
      exact ⟨hoff, hlen, hbytes, ih hrest⟩

/-- Fewer records end earlier. -/
theorem Written.le_of_initial (h : Written f off recs stop) (h' : Written g off recs' stop')
    (hinit : recs <+: recs') : stop ≤ stop' := by
  induction recs generalizing off recs' with
  | nil =>
      cases h
      exact h'.le
  | cons r recs ih =>
      obtain ⟨more, rfl⟩ := hinit
      obtain ⟨-, -, -, hrest⟩ := h
      obtain ⟨-, -, -, hrest'⟩ := h'
      exact ih hrest hrest' (List.prefix_append ..)

/-- The records that stand there are the records that are read. -/
theorem Written.readRecords (h : Written f off recs stop) {fuel : Nat}
    (hfuel : recs.length ≤ fuel) : MmapJournal.readRecords f stop fuel off = recs := by
  induction recs generalizing off fuel with
  | nil =>
      cases h
      cases fuel with
      | zero => rfl
      | succ fuel => exact if_pos (by omega)
  | cons r recs ih =>
      obtain ⟨i, payload⟩ := r
      obtain ⟨rfl, hsmall, hread, hrest⟩ := h
      have hle := hrest.le
      rw [read_add, recordBytes] at hread
      obtain ⟨hlen, hpayload⟩ := List.append_inj hread (by simp)
      have hvalue : Bytes.leValue (Bytes.le 4 payload.length) = payload.length :=
        Bytes.leValue_le_of_lt (by simpa using hsmall)
      cases fuel with
      | zero => simp at hfuel
      | succ fuel =>
          rw [List.length_cons] at hfuel
          rw [MmapJournal.readRecords, if_neg (by omega)]
          simp only [hlen, hvalue]
          rw [if_neg (by omega), hpayload, Nat.add_assoc, Nat.add_comm 4, ih hrest (by omega)]

end Written

namespace JournalWorld

variable {w : JournalWorld} {page capacity stop : Nat} {map map' disk disk' : Image}
  {promised accepted accepted' : List (Nat × List UInt8)}

/-! ## Committed cursors -/

/-- The records in front of `stop` are on the disk.  They are the first of those accepted,
and all that was promised is among them. -/
def Anchored (map disk : Image) (promised accepted : List (Nat × List UInt8)) (stop : Nat) :
    Prop :=
  ∃ recs, promised <+: recs ∧ recs <+: accepted ∧ Written map headerLen recs stop ∧
    Agree disk map headerLen stop

theorem Anchored.persist (h : Anchored map disk promised accepted stop) (group : Nat → Bool) :
    Anchored map (Storage.persist map disk group) promised accepted stop := by
  obtain ⟨recs, hpromised, haccepted, hwritten, hagree⟩ := h
  exact ⟨recs, hpromised, haccepted, hwritten, hagree.persist group⟩

/-- Writes behind the anchor, or to the header. -/
theorem Anchored.remap (h : Anchored map disk promised accepted stop)
    (hmap : Agree map' map headerLen stop) : Anchored map' disk promised accepted stop := by
  obtain ⟨recs, hpromised, haccepted, hwritten, hagree⟩ := h
  exact ⟨recs, hpromised, haccepted, hwritten.congr hmap, hagree.trans hmap.symm⟩

theorem Anchored.accept (h : Anchored map disk promised accepted stop)
    (hle : accepted <+: accepted') : Anchored map disk promised accepted' stop := by
  obtain ⟨recs, hpromised, haccepted, hrest⟩ := h
  exact ⟨recs, hpromised, haccepted.trans hle, hrest⟩

/-- The committed cursor that an image holds. -/
def headerOf (f : Image) : Nat := max (Bytes.leValue (read f 0 headerLen)) headerLen

theorem headerOf_congr {f g : Image} (h : Agree f g 0 headerLen) : headerOf f = headerOf g := by
  rw [headerOf, headerOf, h.read_eq (Nat.le_refl _) (Nat.le_refl _)]

/-- A header that moves as a whole is the old one or the new one. -/
theorem headerOf_persist (map disk : Image) {group : Nat → Bool}
    (h : ∀ i < headerLen, group i = group 0) :
    headerOf (Storage.persist map disk group) = headerOf map ∨
      headerOf (Storage.persist map disk group) = headerOf disk := by
  cases hg : group 0 with
  | true =>
      left
      refine headerOf_congr fun i _ hi => ?_
      rw [Storage.persist, h i hi, hg, if_pos rfl]
  | false =>
      right
      refine headerOf_congr fun i _ hi => ?_
      rw [Storage.persist, h i hi, hg]
      rfl

theorem headerOf_put (map : Image) {cursor : Nat} (hlow : headerLen ≤ cursor)
    (hhigh : cursor < 2 ^ 64) :
    headerOf (put map 0 (Bytes.le 8 cursor)) = cursor := by
  have hread : read (put map 0 (Bytes.le 8 cursor)) 0 headerLen = Bytes.le 8 cursor := by
    have := read_put map 0 (Bytes.le 8 cursor)
    rwa [Bytes.length_le] at this
  rw [headerOf, hread, Bytes.leValue_le_of_lt (by simpa using hhigh)]
  exact Nat.max_eq_left hlow

/-! ## The invariant -/

/-- What holds while a call runs. -/
def CallKept (w : JournalWorld) : JournalCall → Prop
  | .idle => True
  | .copying payload stores later =>
      payload.length < 2 ^ 32 ∧ (∀ p ∈ later, p.length < 2 ^ 32) ∧
        w.journal.cursor + (payload.length + 4) ≤ w.journal.cap ∧
        stores ⊆ (recordBytes payload).zipIdx w.journal.cursor ∧
        ∀ x ∈ (recordBytes payload).zipIdx w.journal.cursor, x ∈ stores ∨ w.journal.map x.2 = x.1
  | .waitData => True
  | .writeHeader => Agree w.disk w.journal.map headerLen w.journal.cursor
  | .waitHeader =>
      headerOf w.journal.map = w.journal.cursor ∧
        Agree w.disk w.journal.map headerLen w.journal.cursor

/-- The call goes on with the next record. -/
theorem callKept_nextRecord {records : List (List UInt8)}
    (hsmall : ∀ payload ∈ records, payload.length < 2 ^ 32) :
    w.CallKept (nextRecord w.journal records) := by
  cases records with
  | nil => trivial
  | cons payload later =>
      rw [JournalWorld.nextRecord]
      split
      next => trivial
      next hfits =>
        exact ⟨hsmall payload List.mem_cons_self, fun p hp => hsmall p (List.mem_cons_of_mem _ hp),
          Nat.not_lt.mp hfits, List.Subset.refl _, fun x hx => Or.inl hx⟩

/-- The invariant. -/
structure Kept (capacity : Nat) (w : JournalWorld) : Prop where
  cap : w.journal.cap = capacity
  room : w.journal.cursor ≤ capacity
  written : Written w.journal.map headerLen w.accepted w.journal.cursor
  memory : Anchored w.journal.map w.disk w.promised w.accepted (headerOf w.journal.map)
  disk : Anchored w.journal.map w.disk w.promised w.accepted (headerOf w.disk)
  call : w.CallKept w.call

theorem kept_create (h : headerLen ≤ capacity) : (create capacity).Kept capacity := by
  have hheader : headerOf (fun _ => 0) = headerLen := by decide
  have hanchor : Anchored (fun _ => 0) (fun _ => 0) [] [] (headerOf fun _ => 0) := by
    rw [hheader]
    exact ⟨[], List.prefix_rfl, List.prefix_rfl, rfl, Agree.refl _ _ _⟩
  exact ⟨rfl, h, rfl, hanchor, hanchor, trivial⟩

namespace Kept

theorem low (h : w.Kept capacity) : headerLen ≤ w.journal.cursor := h.written.le

/-- A committed cursor is in front of the cursor. -/
theorem anchor_le (h : w.Kept capacity)
    (ha : Anchored w.journal.map w.disk w.promised w.accepted stop) : stop ≤ w.journal.cursor := by
  obtain ⟨recs, -, haccepted, hwritten, -⟩ := ha
  exact hwritten.le_of_initial h.written haccepted

/-- A call that ends, or goes from one place to the next. -/
theorem move (h : w.Kept capacity) (call : JournalCall) (hcall : w.CallKept call) :
    ({ w with call := call } : JournalWorld).Kept capacity := by
  refine ⟨h.cap, h.room, h.written, h.memory, h.disk, ?_⟩
  cases call with
  | copying payload stores later => exact hcall
  | idle => trivial
  | waitData => trivial
  | writeHeader => exact hcall
  | waitHeader => exact hcall

/-- Bytes reach the disk, the header as a whole. -/
theorem persist (h : w.Kept capacity) {group : Nat → Bool}
    (hgroup : ∀ i < headerLen, group i = group 0) :
    ({ w with disk := Storage.persist w.journal.map w.disk group } : JournalWorld).Kept
      capacity := by
  refine ⟨h.cap, h.room, h.written, h.memory.persist group, ?_, ?_⟩
  · rcases headerOf_persist w.journal.map w.disk hgroup with he | he
    · simp only [he]
      exact h.memory.persist group
    · simp only [he]
      exact h.disk.persist group
  · have hcall := h.call
    cases hw : w.call with
    | idle => trivial
    | copying payload stores later =>
        rw [hw] at hcall
        exact hcall
    | waitData => trivial
    | writeHeader =>
        rw [hw] at hcall
        exact hcall.persist group
    | waitHeader =>
        rw [hw] at hcall
        exact ⟨hcall.1, hcall.2.persist group⟩

/-- A wait for bytes that include the header. -/
theorem sync (h : w.Kept capacity) {n : Nat} (hn : headerLen ≤ n) :
    ({ w with disk := Storage.sync w.journal.map w.disk n } : JournalWorld).Kept capacity := by
  refine h.persist fun i hi => ?_
  rw [decide_eq_true (show i < n by omega), decide_eq_true (show 0 < n by omega)]

/-- A record is being copied. -/
theorem store (h : w.Kept capacity) (k : Nat) : (w.act page (.store k)).Kept capacity := by
  have hlow := h.low
  have hcall := h.call
  simp only [act]
  split
  next payload stores later hw =>
    split
    next b i hk =>
      rw [hw] at hcall
      obtain ⟨hsmall, hlater, hfits, hsub, hdone⟩ := hcall
      have hmem := List.mem_of_getElem? hk
      have hi : w.journal.cursor ≤ i := (List.mem_zipIdx (hsub hmem)).1
      have hagree : ∀ {lo hi'}, hi' ≤ w.journal.cursor →
          Agree (Function.update w.journal.map i b) w.journal.map lo hi' :=
        fun hle => agree_update b (Or.inr (hle.trans hi))
      have hheader : headerOf (Function.update w.journal.map i b) = headerOf w.journal.map :=
        headerOf_congr (hagree hlow)
      refine ⟨h.cap, h.room, h.written.congr (hagree (Nat.le_refl _)), ?_,
        h.disk.remap (hagree (h.anchor_le h.disk)), hsmall, hlater, hfits, ?_, ?_⟩
      · simp only [hheader]
        exact h.memory.remap (hagree (h.anchor_le h.memory))
      · exact fun x hx => hsub (List.mem_of_mem_eraseIdx hx)
      · intro x hx
        by_cases hxi : x.2 = i
        · -- The bytes of a record are at different positions.
          right
          have hb : x = (b, i) := by
            obtain ⟨x₁, x₂⟩ := x
            have h₁ := List.mem_zipIdx_iff_le_and_getElem?_sub.mp hx
            have h₂ := List.mem_zipIdx_iff_le_and_getElem?_sub.mp (hsub hmem)
            cases hxi
            exact Prod.ext (Option.some.inj (h₁.2.symm.trans h₂.2)) rfl
          simp [hb]
        · rcases hdone x hx with hin | hmap
          · left
            have hne : x ≠ (b, i) := fun he => hxi (congrArg Prod.snd he)
            rw [List.mem_eraseIdx_iff_getElem?]
            obtain ⟨l, hl⟩ := List.getElem?_of_mem hin
            refine ⟨l, ?_, hl⟩
            rintro rfl
            exact hne (Option.some.inj (hl.symm.trans hk))
          · right
            simpa [Function.update_of_ne hxi] using hmap
    next => exact h
  next => exact h

/-- A record is complete. -/
theorem advance (h : w.Kept capacity) (ha : w.Allowed .advance) :
    (w.act page .advance).Kept capacity := by
  have hcall := h.call
  have hnone : w.call.toCopy = some [] := ha
  cases hw : w.call with
  | copying payload stores later =>
      rw [hw] at hcall hnone
      cases hnone
      obtain ⟨hsmall, hlater, hfits, -, hdone⟩ := hcall
      have hread : read w.journal.map w.journal.cursor (4 + payload.length) =
          recordBytes payload := by
        rw [← length_recordBytes]
        refine read_eq_of_getElem fun i b hb => ?_
        have hx : (b, w.journal.cursor + i) ∈ (recordBytes payload).zipIdx w.journal.cursor := by
          rw [List.mem_zipIdx_iff_le_and_getElem?_sub]
          simpa using hb
        exact (hdone _ hx).resolve_left List.not_mem_nil
      simp only [act, hw]
      exact ⟨h.cap, h.cap ▸ hfits, h.written.snoc hsmall hread,
        h.memory.accept (List.prefix_append ..), h.disk.accept (List.prefix_append ..),
        callKept_nextRecord hlater⟩
  | idle => rw [hw] at hnone; cases hnone
  | waitData => rw [hw] at hnone; cases hnone
  | writeHeader => rw [hw] at hnone; cases hnone
  | waitHeader => rw [hw] at hnone; cases hnone

/-- A commit has waited for the records and writes the header. -/
theorem header (h : w.Kept capacity) (hmax : capacity < 2 ^ 63) (ha : w.call = .writeHeader) :
    (w.act page .header).Kept capacity := by
  have hcall := h.call
  rw [ha] at hcall
  have hagree : ∀ hi, Agree (put w.journal.map 0 (Bytes.le 8 w.journal.cursor)) w.journal.map
      headerLen hi := fun hi i hlo _ => put_of_le (by simpa [headerLen] using hlo)
  have hsynced : Agree w.disk (put w.journal.map 0 (Bytes.le 8 w.journal.cursor)) headerLen
      w.journal.cursor := hcall.trans (hagree _).symm
  have hroom := h.room
  have hcursor := headerOf_put w.journal.map h.low (by omega)
  have hpromised : w.promised <+: w.accepted := by
    obtain ⟨recs, hp, hr, -⟩ := h.memory
    exact hp.trans hr
  have hwritten := h.written.congr (hagree w.journal.cursor)
  refine ⟨h.cap, h.room, hwritten, ?_, h.disk.remap (hagree _), hcursor, hsynced⟩
  simp only [act, hcursor]
  exact ⟨w.accepted, hpromised, List.prefix_rfl, hwritten, hsynced⟩

/-- A wait inside a commit returns. -/
theorem synced (h : w.Kept capacity) (hpage : headerLen ≤ page) (ok : Bool) :
    (w.act page (.synced ok)).Kept capacity := by
  have hcall := h.call
  cases hw : w.call with
  | waitData =>
      cases ok with
      | false =>
          simp only [act, hw]
          exact h.move .idle trivial
      | true =>
          simp only [act, hw]
          exact (h.sync h.low).move .writeHeader (agree_sync w.journal.map w.disk _ _)
  | waitHeader =>
      cases ok with
      | false =>
          simp only [act, hw]
          exact h.move .idle trivial
      | true =>
          rw [hw] at hcall
          obtain ⟨hheader, hagree⟩ := hcall
          have hsync := h.sync hpage
          have hdisk : headerOf (Storage.sync w.journal.map w.disk page) = w.journal.cursor := by
            rw [← hheader]
            exact headerOf_congr
              ((agree_sync w.journal.map w.disk page 0).mono (Nat.le_refl _) hpage)
          have hanchor : Anchored w.journal.map (Storage.sync w.journal.map w.disk page) w.accepted
              w.accepted w.journal.cursor :=
            ⟨w.accepted, List.prefix_rfl, List.prefix_rfl, h.written, hagree.persist _⟩
          simp only [act, hw, if_true]
          refine ⟨h.cap, h.room, h.written, ?_, ?_, trivial⟩
          · simpa only [hheader] using hanchor
          · simpa only [hdisk] using hanchor
  | idle => simpa only [act, hw] using h
  | copying payload stores later => simpa only [act, hw] using h
  | writeHeader => simpa only [act, hw] using h

/-- Every step keeps the invariant. -/
theorem act (h : w.Kept capacity) (hpage : headerLen ≤ page) (hmax : capacity < 2 ^ 63)
    (a : JournalAct) (ha : w.Allowed a) : (w.act page a).Kept capacity := by
  cases a with
  | append payload =>
      refine h.move _ (callKept_nextRecord fun p hp => ?_)
      rw [List.mem_singleton.mp hp]
      exact ha.2
  | appendBatch records => exact h.move _ (callKept_nextRecord ha.2)
  | store k => exact h.store k
  | advance => exact h.advance ha
  | msync sync ok =>
      simp only [JournalWorld.act]
      split
      · exact h.sync h.low
      · exact h
  | commit =>
      refine h.move _ ?_
      split
      next => trivial
      next hlow =>
        -- There is no record yet.
        exact fun i hlo hhi => absurd hhi (by omega)
  | synced ok => exact h.synced hpage ok
  | header => exact h.header hmax ha
  | persist group => exact h.persist ha

end Kept

/-! ## Recovery -/

/-- In every state that a journal comes to, with a page that has room for the header and a
file of at least a page, a crash loses nothing that a commit promised.  The records read
up to the committed cursor are the first of those accepted, each at its position and with
its payload.  Without a crash, those up to the cursor are all that were accepted. -/
theorem crash_consistent (hpage : headerLen ≤ page) (hcap : page ≤ capacity)
    (hmax : capacity < 2 ^ 63)
    (h : Runs.Reachable (act page) Allowed (create capacity) w) :
    (w.promised <+: w.reopened.iterRecords w.reopened.committedCursor ∧
        w.reopened.iterRecords w.reopened.committedCursor <+: w.accepted) ∧
      w.journal.iterRecords w.journal.cursor = w.accepted := by
  have hkept : w.Kept capacity :=
    h.invariant (kept_create (hpage.trans hcap)) fun _ a _ ha hk => hk.act hpage hmax a ha
  constructor
  · obtain ⟨recs, hpromised, haccepted, hwritten, hagree⟩ := hkept.disk
    have hrecs : w.reopened.iterRecords w.reopened.committedCursor = recs :=
      (hwritten.congr hagree).readRecords (hwritten.length_le.trans (Nat.sub_le ..))
    rw [hrecs]
    exact ⟨hpromised, haccepted⟩
  · exact hkept.written.readRecords (hkept.written.length_le.trans (Nat.sub_le ..))

/-- A record is committed.  Of the next one two bytes are copied, and all that is in memory
reaches the disk before the crash. -/
def tornRun : List JournalAct :=
  .append [1, 2] :: recordSteps [1, 2] ++
    [.commit, .synced true, .header, .synced true, .append [3], .store 4, .store 0,
      .persist fun _ => true]

theorem crash_consistent_torn :
    let w := tornRun.foldl (act 4096) (create 4096)
    w.promised = [(8, [1, 2])] ∧
      w.promised <+: w.reopened.iterRecords w.reopened.committedCursor := by
  have hreach : Runs.Reachable (act 4096) Allowed (create 4096)
      (tornRun.foldl (act 4096) (create 4096)) := .foldl .start (by decide +kernel)
  exact ⟨by decide +kernel,
    (crash_consistent (by decide) (Nat.le_refl 4096) (by decide) hreach).1.1⟩

end JournalWorld

end MatchCoreHp
