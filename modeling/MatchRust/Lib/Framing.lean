import Mathlib

/-!
# Items in a stream

Items are written one after the other into a stream, each in an encoding that shows
where it ends.  A reader gets the stream in pieces.  It keeps what it has in a buffer
and takes the complete items off its front.  However the stream is cut, it reads the
items in order, and what is left in the buffer and in the stream is the encoding of the
items that are left (`Frames.parse_prefix`).  A stream that is there as a whole is read
to its end (`Frames.parse_all`).

If nothing but encodings of good items is read (`Exact`), any buffer may be parsed, also
one that was not written as items.  Then the items are the longest list whose encoding is
at the front (`Frames.prefix_parse`), and it does not matter in which pieces the buffer
came (`Exact.feed_eq`).
-/

namespace Framing

variable {α β : Type}

/-- Take items off the front of a buffer as long as one is complete: the items, and the rest. -/
def parse (next : List β → Option (α × List β)) : Nat → List β → List α × List β
  | 0, buf => ([], buf)
  | fuel + 1, buf =>
      match next buf with
      | none => ([], buf)
      | some (a, rest) => (a :: (parse next fuel rest).1, (parse next fuel rest).2)

/-- `next` reads the good items that `enc` writes, and no part of one. -/
structure Frames (next : List β → Option (α × List β)) (enc : α → List β) (Good : α → Prop) :
    Prop where
  nonempty : ∀ a, enc a ≠ []
  nothing : next [] = none
  complete : ∀ a, Good a → ∀ rest, next (enc a ++ rest) = some (a, rest)
  partly : ∀ a, Good a → ∀ buf, buf <+: enc a → buf.length < (enc a).length → next buf = none

variable {next : List β → Option (α × List β)} {enc : α → List β} {Good : α → Prop}

theorem parse_of_none {buf : List β} (h : next buf = none) (fuel : Nat) :
    parse next fuel buf = ([], buf) := by
  cases fuel with
  | zero => rfl
  | succ fuel => simp only [parse, h]

theorem Frames.parse_append (h : Frames next enc Good) {a : α} (ha : Good a) (rest : List β)
    (fuel : Nat) :
    parse next (fuel + 1) (enc a ++ rest) =
      (a :: (parse next fuel rest).1, (parse next fuel rest).2) := by
  simp only [parse, h.complete a ha]

/-- A buffer at the front of a stream of items is read as the first items. -/
theorem Frames.parse_prefix (h : Frames next enc Good) {items : List α}
    (hgood : ∀ a ∈ items, Good a) {buf later : List β} (hbuf : buf ++ later = items.flatMap enc)
    {fuel : Nat} (hfuel : buf.length ≤ fuel) :
    ∃ left, items = (parse next fuel buf).1 ++ left ∧
      (parse next fuel buf).1.flatMap enc ++ (parse next fuel buf).2 = buf ∧
      (parse next fuel buf).2 ++ later = left.flatMap enc := by
  induction items generalizing buf fuel with
  | nil =>
      obtain ⟨rfl, rfl⟩ := List.append_eq_nil_iff.mp hbuf
      rw [parse_of_none h.nothing]
      exact ⟨[], rfl, rfl, rfl⟩
  | cons a items ih =>
      have ha := hgood a List.mem_cons_self
      rw [List.flatMap_cons] at hbuf
      rcases Nat.lt_or_ge buf.length (enc a).length with hshort | hlong
      · -- the first item is not complete
        have hpre : buf <+: enc a :=
          List.prefix_of_prefix_length_le ⟨later, hbuf⟩ (List.prefix_append _ _) hshort.le
        rw [parse_of_none (h.partly a ha buf hpre hshort)]
        exact ⟨a :: items, rfl, rfl, hbuf⟩
      · obtain ⟨buf', rfl⟩ : enc a <+: buf :=
          List.prefix_of_prefix_length_le (List.prefix_append _ _) ⟨later, hbuf⟩ hlong
        have hpos : 0 < (enc a).length := List.length_pos_iff.mpr (h.nonempty a)
        rw [List.length_append] at hfuel
        cases fuel with
        | zero => omega
        | succ fuel =>
            rw [List.append_assoc, List.append_cancel_left_eq] at hbuf
            obtain ⟨left, hitems, hread, hrest⟩ :=
              ih (fun b hb => hgood b (List.mem_cons_of_mem a hb)) hbuf
                (show buf'.length ≤ fuel by omega)
            rw [h.parse_append ha]
            refine ⟨left, ?_, ?_, hrest⟩
            · rw [List.cons_append, ← hitems]
            · rw [List.flatMap_cons, List.append_assoc, hread]

/-- A stream of whole items is read to its end. -/
theorem Frames.parse_all (h : Frames next enc Good) {items : List α}
    (hgood : ∀ a ∈ items, Good a) {fuel : Nat} (hfuel : (items.flatMap enc).length ≤ fuel) :
    parse next fuel (items.flatMap enc) = (items, []) := by
  induction items generalizing fuel with
  | nil => exact parse_of_none h.nothing fuel
  | cons a items ih =>
      have hpos : 0 < (enc a).length := List.length_pos_iff.mpr (h.nonempty a)
      rw [List.flatMap_cons, List.length_append] at hfuel
      cases fuel with
      | zero => omega
      | succ fuel =>
          rw [List.flatMap_cons, h.parse_append (hgood a List.mem_cons_self),
            ih (fun b hb => hgood b (List.mem_cons_of_mem a hb)) (by omega)]

/-! ## Any buffer -/

/-- `next` reads the encodings of good items, and nothing else. -/
structure Exact (next : List β → Option (α × List β)) (enc : α → List β) (Good : α → Prop) :
    Prop extends Frames next enc Good where
  sound : ∀ buf a rest, next buf = some (a, rest) → Good a ∧ buf = enc a ++ rest

theorem length_parse_le (fuel : Nat) (buf : List β) : (parse next fuel buf).1.length ≤ fuel := by
  induction fuel generalizing buf with
  | zero => exact le_rfl
  | succ fuel ih =>
      rw [parse]
      split
      next => exact Nat.zero_le _
      next a rest _ => exact Nat.succ_le_succ (ih rest)

/-- Items at the front of a buffer are read, as many as the fuel allows. -/
theorem Frames.prefix_parse (h : Frames next enc Good) {items : List α}
    (hgood : ∀ a ∈ items, Good a) {fuel : Nat} (hfuel : items.length ≤ fuel) {buf : List β}
    (hbuf : items.flatMap enc <+: buf) : items <+: (parse next fuel buf).1 := by
  induction items generalizing fuel buf with
  | nil => exact List.nil_prefix
  | cons a items ih =>
      cases fuel with
      | zero => cases hfuel
      | succ fuel =>
          obtain ⟨rest, rfl⟩ := hbuf
          rw [List.flatMap_cons, List.append_assoc, h.parse_append (hgood a List.mem_cons_self),
            List.prefix_cons_inj]
          exact ih (fun b hb => hgood b (List.mem_cons_of_mem a hb)) (Nat.le_of_succ_le_succ hfuel)
            (List.prefix_append _ rest)

section Exact

variable (h : Exact next enc Good)

include h

/-- The items that are read are good, and they are what was at the front. -/
theorem Exact.parse_sound (fuel : Nat) (buf : List β) :
    (∀ a ∈ (parse next fuel buf).1, Good a) ∧
      (parse next fuel buf).1.flatMap enc ++ (parse next fuel buf).2 = buf := by
  induction fuel generalizing buf with
  | zero => exact ⟨fun a ha => absurd ha List.not_mem_nil, rfl⟩
  | succ fuel ih =>
      rw [parse]
      split
      next => exact ⟨fun a ha => absurd ha List.not_mem_nil, rfl⟩
      next a rest hnext =>
        obtain ⟨ha, rfl⟩ := h.sound buf a rest hnext
        obtain ⟨hgood, hrest⟩ := ih rest
        refine ⟨fun b hb => ?_, ?_⟩
        · rcases List.mem_cons.mp hb with rfl | hb
          · exact ha
          · exact hgood b hb
        · rw [List.flatMap_cons, List.append_assoc, hrest]

theorem Exact.length_rest {buf rest : List β} {a : α} (hnext : next buf = some (a, rest)) :
    rest.length < buf.length := by
  obtain ⟨-, rfl⟩ := h.sound buf a rest hnext
  have hpos : 0 < (enc a).length := List.length_pos_iff.mpr (h.nonempty a)
  rw [List.length_append]
  omega

/-- More fuel than there is to read changes nothing. -/
theorem Exact.parse_fuel {buf : List β} {fuel : Nat} (hfuel : buf.length ≤ fuel) :
    parse next fuel buf = parse next buf.length buf := by
  obtain ⟨n, hn⟩ : ∃ n, n = buf.length := ⟨_, rfl⟩
  induction n using Nat.strong_induction_on generalizing buf fuel with
  | _ n ih =>
      cases hnext : next buf with
      | none => rw [parse_of_none hnext, parse_of_none hnext]
      | some r =>
          obtain ⟨a, rest⟩ := r
          have hlt := h.length_rest hnext
          obtain ⟨k, hk⟩ : ∃ k, buf.length = k + 1 := ⟨buf.length - 1, by omega⟩
          obtain ⟨f, rfl⟩ : ∃ f, fuel = f + 1 := ⟨fuel - 1, by omega⟩
          have hsame : parse next f rest = parse next k rest := by
            rw [ih rest.length (by omega) (show rest.length ≤ f by omega) rfl,
              ih rest.length (by omega) (show rest.length ≤ k by omega) rfl]
          simp only [hk, parse, hnext, hsame]

/-- A buffer that grows is read from where the reader stopped. -/
theorem Exact.parse_more (buf more : List β) :
    parse next (buf ++ more).length (buf ++ more) =
      ((parse next buf.length buf).1 ++
          (parse next ((parse next buf.length buf).2 ++ more).length
            ((parse next buf.length buf).2 ++ more)).1,
        (parse next ((parse next buf.length buf).2 ++ more).length
          ((parse next buf.length buf).2 ++ more)).2) := by
  obtain ⟨n, hn⟩ : ∃ n, n = buf.length := ⟨_, rfl⟩
  induction n using Nat.strong_induction_on generalizing buf with
  | _ n ih =>
      cases hnext : next buf with
      | none => simp only [parse_of_none hnext, List.nil_append]
      | some r =>
          obtain ⟨a, rest⟩ := r
          have hlt := h.length_rest hnext
          obtain ⟨ha, hbuf⟩ := h.sound buf a rest hnext
          have hread : parse next buf.length buf = (a :: (parse next rest.length rest).1,
              (parse next rest.length rest).2) := by
            obtain ⟨k, hk⟩ : ∃ k, buf.length = k + 1 := ⟨buf.length - 1, by omega⟩
            rw [hk, hbuf, h.parse_append ha, h.parse_fuel (show rest.length ≤ k by omega)]
          have hreadMore : parse next (buf ++ more).length (buf ++ more) =
              (a :: (parse next (rest ++ more).length (rest ++ more)).1,
                (parse next (rest ++ more).length (rest ++ more)).2) := by
            obtain ⟨k, hk⟩ : ∃ k, (buf ++ more).length = k + 1 :=
              ⟨(buf ++ more).length - 1, by rw [List.length_append]; omega⟩
            have hlen : (rest ++ more).length ≤ k := by
              rw [List.length_append] at hk ⊢
              omega
            rw [hk, hbuf, List.append_assoc, h.parse_append ha, h.parse_fuel hlen]
          rw [hread, hreadMore, ih rest.length (by omega) rest rfl]
          rfl

/-- Nothing is left that could be read. -/
theorem Exact.parse_rest (buf : List β) :
    parse next (parse next buf.length buf).2.length (parse next buf.length buf).2 =
      ([], (parse next buf.length buf).2) := by
  have hmore := h.parse_more buf []
  rw [List.append_nil, List.append_nil] at hmore
  have hitems := congrArg Prod.fst hmore
  have hrest := congrArg Prod.snd hmore
  exact Prod.ext (List.self_eq_append_right.mp hitems) hrest.symm

end Exact

/-- Read a buffer that comes in pieces, and keep what is not read yet. -/
def feed (next : List β → Option (α × List β)) : List β → List (List β) → List α × List β
  | left, [] => ([], left)
  | left, piece :: pieces =>
      let r := parse next (left ++ piece).length (left ++ piece)
      let rest := feed next r.2 pieces
      (r.1 ++ rest.1, rest.2)

/-- In whatever pieces a buffer comes, it is read as a whole would be. -/
theorem Exact.feed_eq (h : Exact next enc Good) {left : List β}
    (hleft : parse next left.length left = ([], left)) (pieces : List (List β)) :
    feed next left pieces =
      parse next (left ++ pieces.flatten).length (left ++ pieces.flatten) := by
  induction pieces generalizing left with
  | nil => rw [feed, List.flatten_nil, List.append_nil, hleft]
  | cons piece pieces ih =>
      have hwhole := h.parse_more (left ++ piece) pieces.flatten
      rw [List.append_assoc] at hwhole
      rw [feed, List.flatten_cons, hwhole, ih (h.parse_rest (left ++ piece))]

end Framing
