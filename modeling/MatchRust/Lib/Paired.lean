import Mathlib.Data.List.Forall2
import Mathlib.Data.List.Perm.Basic
import Mathlib.Order.Basic

/-!
# Lists in pairs

Two lists whose elements are related in pairs (`List.Forall₂`).  What stands at a place of
one has a partner at that place of the other, and what holds between the elements of one
holds between their partners.  If both lists are sorted by keys that partners share, then it
does not matter in which order the pairs are found (`forall₂_of_sorted`).
-/

namespace Paired

variable {α β : Type*} {R : α → β → Prop}

/-- The partner of an element, with what stands before and after it. -/
theorem forall₂_split {a : α} {l₁ l₂ : List α} {l' : List β}
    (h : List.Forall₂ R (l₁ ++ a :: l₂) l') :
    ∃ l₁' b l₂', l' = l₁' ++ b :: l₂' ∧ R a b ∧ List.Forall₂ R (l₁ ++ l₂) (l₁' ++ l₂') := by
  induction l₁ generalizing l' with
  | nil =>
      cases h with
      | @cons _ b _ l₂' hab h => exact ⟨[], b, l₂', rfl, hab, h⟩
  | cons c l₁ ih =>
      cases h with
      | @cons _ d _ l' hcd h =>
          obtain ⟨l₁', b, l₂', rfl, hab, hrest⟩ := ih h
          exact ⟨d :: l₁', b, l₂', rfl, hab, .cons hcd hrest⟩

theorem exists_of_mem_right {l : List α} {l' : List β} (h : List.Forall₂ R l l') {b : β}
    (hb : b ∈ l') : ∃ a ∈ l, R a b := by
  obtain ⟨l₁', l₂', rfl⟩ := List.append_of_mem hb
  obtain ⟨l₁, a, l₂, rfl, hab, -⟩ := forall₂_split h.flip
  exact ⟨a, by simp, hab⟩

/-- What holds between elements holds between their partners. -/
theorem pairwise_right {P : α → α → Prop} {Q : β → β → Prop}
    (hPQ : ∀ {a b c d}, R a b → R c d → P a c → Q b d) {l : List α} {l' : List β}
    (h : List.Forall₂ R l l') (hl : l.Pairwise P) : l'.Pairwise Q := by
  induction h with
  | nil => exact .nil
  | @cons a b l l' hab h ih =>
      obtain ⟨hhead, htail⟩ := List.pairwise_cons.mp hl
      refine List.pairwise_cons.mpr ⟨fun d hd => ?_, ih htail⟩
      obtain ⟨c, hc, hcd⟩ := exists_of_mem_right h hd
      exact hPQ hab hcd (hhead c hc)

/-- Lists sorted by keys that partners share are paired in their order, if some reordering of
them is. -/
theorem forall₂_of_sorted {κ : Type*} [Preorder κ] {key : α → κ} {key' : β → κ}
    (hkey : ∀ {a b}, R a b → key' b = key a) {l as : List α} {l' bs : List β}
    (hl : l.Pairwise fun a c => key a < key c) (hl' : l'.Pairwise fun b d => key' b < key' d)
    (hperm : l.Perm as) (h : List.Forall₂ R as bs) (hperm' : bs.Perm l') :
    List.Forall₂ R l l' := by
  obtain ⟨v, hv, hvbs⟩ := List.perm_comp_forall₂ hperm h
  have hsorted : v.Pairwise fun b d => key' b < key' d := by
    refine pairwise_right (fun {a b c d} hab hcd hac => ?_) hv hl
    rwa [hkey hab, hkey hcd]
  have hvl : v = l' := by
    refine (hvbs.trans hperm').eq_of_pairwise (fun b d _ _ hbd hdb => ?_) hsorted hl'
    exact absurd hbd (lt_asymm hdb)
  rwa [← hvl]

end Paired
