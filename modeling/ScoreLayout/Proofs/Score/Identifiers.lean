import Mathlib.Data.List.Perm.Subperm
import Mathlib.Data.List.Nodup
import ScoreLayout.Score.Edit
import Std.Data.String.ToNat

/-!
# Generated identifiers

A document looks for an identifier that is not in use by counting up. It tries as many numbers as it
has nodes, so one of them is free. All generated identifiers end in a digit, which keeps them apart
from the two identifiers under which unbroken content is found again.

## Main definitions

* `Document.ids` — the identifiers in use.
* `Document.freeId` — an identifier made free by a number after it.

## Main results

* `Document.freshId_not_mem`, `Document.freeId_not_mem` — a generated identifier is not in use.
* `Document.suffixedId_eq` — it depends only on the identifiers in use.
* `EndsInDigit.ne_contentPageId`, `EndsInDigit.ne_contentSystemId` — identifiers that end in a digit
  are not reserved.
-/

namespace ScoreLayout

/-! ### Texts that end in a digit -/

/-- A text whose last character is a digit. -/
def EndsInDigit (text : String) : Prop := ∃ c, text.toList.getLast? = some c ∧ c.isDigit

namespace EndsInDigit

theorem append {text : String} (h : EndsInDigit text) (front : String) :
    EndsInDigit (front ++ text) := by
  obtain ⟨c, hc, hd⟩ := h
  refine ⟨c, ?_, hd⟩
  rw [String.toList_append, List.getLast?_append, hc, Option.some_or]

theorem repr (n : Nat) : EndsInDigit (toString n) := by
  have hne : (Nat.toDigits 10 n) ≠ [] := Nat.toDigits_ne_nil
  refine ⟨(Nat.toDigits 10 n).getLast hne, ?_, ?_⟩
  · rw [Nat.toString_eq_ofList_toDigits, String.toList_ofList, List.getLast?_eq_some_getLast hne]
  · exact Nat.isDigit_of_mem_toDigits (by omega) (by omega) (List.getLast_mem hne)

theorem padded (width n : Nat) : EndsInDigit (Decimal.padded 10 width n) := by
  have hne : (Nat.toDigits 10 n) ≠ [] := Nat.toDigits_ne_nil
  refine ⟨(Nat.toDigits 10 n).getLast hne, ?_, ?_⟩
  · rw [Decimal.padded, String.toList_ofList, List.getLast?_append,
      List.getLast?_eq_some_getLast hne, Option.some_or]
  · exact Nat.isDigit_of_mem_toDigits (by omega) (by omega) (List.getLast_mem hne)

private theorem ne_of_getLast? {text other : String} (h : EndsInDigit text) {c : Char}
    (hc : other.toList.getLast? = some c) (hd : ¬ c.isDigit) : text ≠ other := by
  rintro rfl
  obtain ⟨c', hc', hd'⟩ := h
  rw [hc, Option.some.injEq] at hc'
  exact hd (hc' ▸ hd')

theorem ne_contentPageId {text : String} (h : EndsInDigit text) :
    text ≠ Document.contentPageId :=
  h.ne_of_getLast? (c := 't') (by decide +kernel) (by decide)

theorem ne_contentSystemId {text : String} (h : EndsInDigit text) :
    text ≠ Document.contentSystemId :=
  h.ne_of_getLast? (c := 't') (by decide +kernel) (by decide)

end EndsInDigit

theorem Decimal.padded_injective (width : Nat) : Function.Injective (Decimal.padded 10 width) := by
  intro m n h
  have hvalue (k : Nat) : Nat.ofDigitChars 10 (Decimal.padded 10 width k).toList 0 = k := by
    rw [Decimal.padded, String.toList_ofList, Nat.ofDigitChars_append,
      Nat.ofDigitChars_replicate_zero, Nat.mul_zero,
      Nat.ofDigitChars_toDigits (by omega) (by omega)]
  rw [← hvalue m, h, hvalue n]

namespace Document

variable {α : Type}

theorem numberedId_injective (name : String) : Function.Injective (numberedId name) := by
  intro m n h
  exact Decimal.padded_injective 4 ((String.append_right_inj _).1 h)

theorem endsInDigit_numberedId (name : String) (n : Nat) : EndsInDigit (numberedId name n) :=
  (EndsInDigit.padded 4 n).append _

/-! ### Counting up to a number that is free -/

private theorem inUse_of_inUse_nextNumber {inUse : Nat → Bool} {fuel n : Nat}
    (h : inUse (nextNumber inUse fuel n)) {k : Nat} (hk : k ≤ fuel) : inUse (n + 1 + k) := by
  induction fuel generalizing n k with
  | zero =>
    obtain rfl : k = 0 := by omega
    exact h
  | succ fuel ih =>
    rw [nextNumber] at h
    by_cases hn : inUse (n + 1)
    · rw [if_pos hn] at h
      cases k with
      | zero => exact hn
      | succ k =>
        have := ih h (k := k) (by omega)
        rwa [show n + 1 + (k + 1) = n + 1 + 1 + k by omega]
    · rw [if_neg hn] at h
      exact absurd h hn

/-- Where different numbers stand for different texts and as many numbers are tried as there are
texts, the number found stands for none of the texts. -/
theorem not_mem_nextNumber {texts : List String} (text : Nat → String)
    (hinj : Function.Injective text) {inUse : Nat → Bool}
    (huse : ∀ n, inUse n ↔ text n ∈ texts) (n : Nat) :
    text (nextNumber inUse texts.length n) ∉ texts := by
  intro hmem
  have hall {k : Nat} (hk : k ≤ texts.length) : text (n + 1 + k) ∈ texts :=
    (huse _).1 (inUse_of_inUse_nextNumber ((huse _).2 hmem) hk)
  have hnodup : ((List.range (texts.length + 1)).map fun k => text (n + 1 + k)).Nodup := by
    refine List.Nodup.map (fun i j hij => ?_) List.nodup_range
    have := hinj hij
    omega
  have hsub : ((List.range (texts.length + 1)).map fun k => text (n + 1 + k)) ⊆ texts := by
    intro t ht
    obtain ⟨k, hk, rfl⟩ := List.mem_map.1 ht
    exact hall (Nat.lt_succ_iff.1 (List.mem_range.1 hk))
  have hlen := (hnodup.subperm hsub).length_le
  rw [List.length_map, List.length_range] at hlen
  omega

/-! ### The identifiers of a document -/

/-- The identifiers in use. -/
def ids (d : Document α) : List String := d.trees.toList.map Node.id

theorem length_ids (d : Document α) : d.ids.length = d.size := by
  rw [ids, List.length_map, Forest.length_toList, size]

theorem hasNodeWithId_iff (d : Document α) (id : String) : d.hasNodeWithId id ↔ id ∈ d.ids := by
  rw [hasNodeWithId, find?, Option.isSome_map, Forest.find?_eq_find?_toList, List.find?_isSome, ids,
    List.mem_map]
  simp [hasId]

theorem freshId_not_mem (d : Document α) (name : String) : (d.freshId name).1 ∉ d.ids := by
  rw [freshId, ← length_ids]
  exact not_mem_nextNumber (numberedId name) (numberedId_injective name) (fun n => d.hasNodeWithId_iff _) d.counter

theorem endsInDigit_freshId (d : Document α) (name : String) : EndsInDigit (d.freshId name).1 :=
  endsInDigit_numberedId ..

/-- The first of `base`, `base-2`, `base-3` and so on that is not among the identifiers in use. -/
def freeId (used : List String) (base : String) : String :=
  if base ∈ used then
    let numbered := fun (n : Nat) => base ++ "-" ++ toString n
    numbered (nextNumber (fun n => numbered n ∈ used) used.length 1)
  else base

theorem suffixedId_eq (d : Document α) (base : String) : d.suffixedId base = freeId d.ids base := by
  have huse (id : String) : d.hasNodeWithId id = decide (id ∈ d.ids) := by
    rw [Bool.eq_iff_iff, hasNodeWithId_iff, decide_eq_true_iff]
  simp only [suffixedId, freeId, huse, length_ids, decide_eq_true_eq]

/-- The order of the identifiers in use does not matter. -/
theorem freeId_perm {used used' : List String} (h : used.Perm used') (base : String) :
    freeId used base = freeId used' base := by
  simp only [freeId, h.mem_iff, h.length_eq]

theorem freeId_of_not_mem {used : List String} {base : String} (h : base ∉ used) :
    freeId used base = base := if_neg h

theorem freeId_not_mem (used : List String) (base : String) : freeId used base ∉ used := by
  rw [freeId]
  split
  · refine not_mem_nextNumber (fun n => base ++ "-" ++ toString n) (fun m n h => ?_)
      (fun n => decide_eq_true_iff) 1
    exact Nat.repr_injective ((String.append_right_inj _).1 h)
  · assumption

/-- A number after the base is the only thing that is ever added. -/
theorem freeId_eq_or_endsInDigit (used : List String) (base : String) :
    freeId used base = base ∨ EndsInDigit (freeId used base) := by
  rw [freeId]
  split
  · exact .inr ((EndsInDigit.repr _).append _)
  · exact .inl rfl

end Document

end ScoreLayout
