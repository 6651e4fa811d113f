import Mathlib.Data.List.DropRight
import Mathlib.Data.List.TakeWhile
import Mathlib.Data.String.Basic
import Mathlib.Tactic.Common

/-!
# Texts as lists of characters

What cutting, joining and trimming do to a text, and which characters the digits of a number are.

Main results:

* `Texts.dropWhile_rdropWhile_append` — trimming takes away what was put around a text;
* `Texts.takeWhile_eq_self_or` — a text is cut at its first character of a kind, or has none;
* `Texts.forall_mem_intercalate_iff` — what holds of every character of a joined text;
* `Texts.toNat_of_mem_repr` — a number is written in digits;
* `Texts.utf8ByteSize_repr` — each of them is a byte.
-/

set_option relaxedAutoImplicit false
set_option autoImplicit false

namespace Texts

variable {α : Type} {p : α → Bool}

/-! ### Both ends of a text -/

/-- Dropping at the end does not bring anything to be dropped to the front. -/
theorem dropWhile_rdropWhile_dropWhile (p : α → Bool) (l : List α) :
    ((l.dropWhile p).rdropWhile p).dropWhile p = (l.dropWhile p).rdropWhile p := by
  rw [List.dropWhile_eq_self_iff]
  intro hl
  have hpre : (l.dropWhile p).rdropWhile p <+: l.dropWhile p := List.rdropWhile_prefix p _
  have hlen : 0 < (l.dropWhile p).length := lt_of_lt_of_le hl hpre.length_le
  rw [hpre.getElem hl]
  exact List.dropWhile_get_zero_not p l hlen

/-- What is dropped at both ends is what was put there. -/
theorem dropWhile_rdropWhile_append {before l after : List α} (hbefore : ∀ a ∈ before, p a = true)
    (hafter : ∀ a ∈ after, p a = true) (hl : l ≠ []) (hhead : ∀ a ∈ l.head?, p a = false)
    (hlast : ∀ a ∈ l.getLast?, p a = false) :
    ((before ++ (l ++ after)).dropWhile p).rdropWhile p = l := by
  have hfront : (l ++ after).dropWhile p = l ++ after := by
    cases l with
    | nil => exact absurd rfl hl
    | cons a l => exact List.dropWhile_cons_of_neg (by simpa using hhead)
  have hback : l.rdropWhile p = l := by
    refine (List.rdropWhile_eq_self_iff).2 fun hne => ?_
    rw [Bool.not_eq_true]
    exact hlast _ (List.getLast?_eq_some_getLast hne)
  have hafter' : ∀ a ∈ after.reverse, p a = true := fun a ha => hafter a (List.mem_reverse.1 ha)
  rw [List.dropWhile_append_of_pos hbefore, hfront, List.rdropWhile, List.reverse_append,
    List.dropWhile_append_of_pos hafter']
  exact hback

/-! ### Cutting a text -/

/-- A text is cut where `p` first fails, or `p` holds all along. -/
theorem takeWhile_eq_self_or (p : α → Bool) (l : List α) :
    l.takeWhile p = l ∨ ∃ a rest, p a = false ∧ l = l.takeWhile p ++ a :: rest := by
  have hsplit := List.takeWhile_append_dropWhile (p := p) (l := l)
  cases hdrop : l.dropWhile p with
  | nil =>
      rw [hdrop, List.append_nil] at hsplit
      exact .inl hsplit
  | cons a rest =>
      have hhead := List.head_dropWhile_not p (l := l) (by simp [hdrop])
      rw [hdrop] at hsplit
      exact .inr ⟨a, rest, by simpa [hdrop] using hhead, hsplit.symm⟩

variable [DecidableEq α]

/-- A text is cut at its first `a`, or has none. -/
theorem takeWhile_ne_eq_self_or (a : α) (l : List α) :
    l.takeWhile (· != a) = l ∨ ∃ rest, l = l.takeWhile (· != a) ++ a :: rest := by
  refine (takeWhile_eq_self_or (· != a) l).imp_right ?_
  rintro ⟨a', rest, ha', hl⟩
  obtain rfl : a' = a := by simpa using ha'
  exact ⟨rest, hl⟩

theorem not_mem_takeWhile_ne (a : α) (l : List α) : a ∉ l.takeWhile (· != a) :=
  fun hmem => absurd (List.mem_takeWhile_imp hmem) (by simp)

omit [DecidableEq α]

/-! ### Joining texts -/

/-- Every part of a joined text has a property, if the text and its separator have. -/
theorem forall_mem_intercalate_iff {P : α → Prop} {sep : List α} (hsep : ∀ x ∈ sep, P x)
    {ls : List (List α)} : (∀ x ∈ sep.intercalate ls, P x) ↔ ∀ l ∈ ls, ∀ x ∈ l, P x := by
  induction ls with
  | nil => simp
  | cons l ls ih =>
      cases ls with
      | nil => simp
      | cons l' ls =>
          rw [List.intercalate_cons_cons, List.append_assoc, List.forall_mem_append,
            List.forall_mem_append, ih, and_iff_right hsep]
          exact (List.forall_mem_cons (p := fun l => ∀ x ∈ l, P x)).symm

/-- A part of a text is a part of what it is joined into. -/
theorem mem_intercalate {sep l : List α} {ls : List (List α)} (hl : l ∈ ls) {x : α} (hx : x ∈ l) :
    x ∈ sep.intercalate ls := by
  induction ls with
  | nil => cases hl
  | cons l' ls ih =>
      cases ls with
      | nil =>
          rw [List.intercalate_singleton, ← List.mem_singleton.1 hl]
          exact hx
      | cons l'' ls =>
          rw [List.intercalate_cons_cons, List.append_assoc, List.mem_append, List.mem_append]
          rcases List.mem_cons.1 hl with rfl | hl
          · exact .inl hx
          · exact .inr (.inr (ih hl))

/-! ### The digits of a number -/

theorem isDigit_of_mem_repr {n : ℕ} {c : Char} (hc : c ∈ n.repr.toList) : c.isDigit = true := by
  rw [Nat.toList_repr] at hc
  exact Nat.isDigit_of_mem_toDigits (by decide) (by decide) hc

/-- A number is written in digits. -/
theorem toNat_of_mem_repr {n : ℕ} {c : Char} (hc : c ∈ n.repr.toList) :
    48 ≤ c.toNat ∧ c.toNat ≤ 57 := by
  have hdigit := isDigit_of_mem_repr hc
  rwa [Char.isDigit, Bool.and_eq_true, decide_eq_true_eq, decide_eq_true_eq, ge_iff_le,
    UInt32.le_iff_toNat_le, UInt32.le_iff_toNat_le] at hdigit

/-- The digits of a number are a byte each. -/
theorem utf8ByteSize_repr (n : ℕ) : n.repr.utf8ByteSize = n.repr.length := by
  have hsize : ∀ cs : List Char, (∀ c ∈ cs, c.utf8Size = 1) → String.utf8Len cs = cs.length := by
    intro cs h
    induction cs with
    | nil => rfl
    | cons c cs ih =>
        rw [String.utf8Len_cons, List.length_cons, ih fun x hx => h x (List.mem_cons_of_mem _ hx),
          h c List.mem_cons_self]
  have hdigits : ∀ c ∈ n.repr.toList, c.utf8Size = 1 := by
    intro c hc
    refine Char.utf8Size_eq_one_iff.2 (UInt32.le_iff_toNat_le.2 ?_)
    exact (toNat_of_mem_repr hc).2.trans (by decide)
  rw [← String.length_toList, ← hsize _ hdigits, ← String.utf8ByteSize_ofList, String.ofList_toList]

/-- What is no digit does not stand in a number. -/
theorem not_mem_repr {c : Char} (hc : c.isDigit = false) (n : ℕ) : c ∉ n.repr.toList := by
  intro hmem
  rw [isDigit_of_mem_repr hmem] at hc
  exact absurd hc (by decide)

end Texts
