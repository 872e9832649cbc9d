/-
  Kaleidoscope.Proofs.Spacing — texts that differ in layout.

  Two texts are alike if the lexer gives the same results for both, and if each result but
  the first begins where the one before it ended in the one text exactly if it does so in
  the other (`Lexer.Alike`). Where results stand, in bytes, may differ everywhere, and the
  end of input may stand apart in the one text and not in the other.

  Texts are alike exactly if they have the same items (`alike_iff`). Past as many results,
  the lexers of texts that are alike go on alike (`Alike.after`).
-/

import Kaleidoscope.Proofs.Position

namespace Kaleidoscope

namespace Source

instance : DecidableEq Reading
  | .ok t, .ok t' => decidable_of_iff (t = t') ⟨fun h => h ▸ rfl, Except.ok.inj⟩
  | .error e, .error e' => decidable_of_iff (e = e') ⟨fun h => h ▸ rfl, Except.error.inj⟩
  | .ok _, .error _ => .isFalse nofun
  | .error _, .ok _ => .isFalse nofun

deriving instance DecidableEq for Item

namespace Lexer

variable {l m : Lexer} {a b : String}

/-- Both give the same results, with the same gaps between them. -/
structure Alike (l m : Lexer) : Prop where
  results : ∀ n, l.result n = m.result n
  gaps : ∀ n, l.result (n + 1) ≠ .ok .eof → l.adjoins (n + 1) = m.adjoins (n + 1)

/-! ## Results and items -/

theorem getElem?_items {n : Nat} (hn : n < (ofText a).items.length) :
    (ofText a).result n ≠ .ok .eof ∧
      (ofText a).items[n]? = some ⟨(ofText a).result n, n != 0 && (ofText a).adjoins n⟩ := by
  have hdrop := items_drop (Nat.le_of_lt hn)
  rcases scan_rest (n != 0) ((ofText a).after n) with ⟨-, hnil⟩ | ⟨hne, hcons⟩
  · have hlength := congrArg List.length (hdrop.trans hnil)
    rw [List.length_drop, List.length_nil] at hlength
    omega
  · refine ⟨hne, ?_⟩
    rw [← List.head?_drop, hdrop, hcons]
    rfl

/-- Past the items there is the end of input for ever. -/
theorem result_of_length_le {n : Nat} (hn : (ofText a).items.length ≤ n) : (ofText a).result n = .ok .eof := by
  have hend : (ofText a).result (ofText a).items.length = .ok .eof := result_of_items_nil
  induction hn with
  | refl => exact hend
  | @step n _ ih =>
    have hrest : ((ofText a).after (n + 1)).rest = [] := rest_of_eof ih
    rw [result, next_of_nil hrest]

theorem result_eof_iff {n : Nat} : (ofText a).result n = .ok .eof ↔ (ofText a).items.length ≤ n := by
  constructor
  · intro heof
    exact Nat.le_of_not_lt fun hn => (getElem?_items hn).1 heof
  · exact result_of_length_le

theorem Alike.length_items (h : (ofText a).Alike (ofText b)) : (ofText a).items.length = (ofText b).items.length := by
  have hle : ∀ n, (ofText a).items.length ≤ n ↔ (ofText b).items.length ≤ n := by
    intro n
    rw [← result_eof_iff, ← result_eof_iff, h.results n]
  exact Nat.le_antisymm ((hle _).mpr (Nat.le_refl _)) ((hle _).mp (Nat.le_refl _))

/-- Texts are alike exactly if they have the same items. -/
theorem alike_iff : (ofText a).Alike (ofText b) ↔ (ofText a).items = (ofText b).items := by
  constructor
  · intro h
    have hlength := h.length_items
    refine List.ext_getElem? fun n => ?_
    by_cases hn : n < (ofText a).items.length
    · obtain ⟨hne, ha⟩ := getElem?_items hn
      obtain ⟨-, hb⟩ := getElem?_items (hlength ▸ hn)
      rw [ha, hb, h.results n]
      cases n with
      | zero => rfl
      | succ n => rw [h.gaps n hne]
    · rw [List.getElem?_eq_none (Nat.le_of_not_lt hn), List.getElem?_eq_none (hlength ▸ Nat.le_of_not_lt hn)]
  · intro h
    have hitem : ∀ n, n < (ofText a).items.length →
        (ofText a).result n = (ofText b).result n ∧ (n != 0 && (ofText a).adjoins n) = (n != 0 && (ofText b).adjoins n) := by
      intro n hn
      have ha := (getElem?_items hn).2
      have hb := (getElem?_items (h ▸ hn)).2
      rw [← h, ha, Option.some_inj, Item.mk.injEq] at hb
      exact hb
    refine ⟨fun n => ?_, fun n hne => ?_⟩
    · by_cases hn : n < (ofText a).items.length
      · exact (hitem n hn).1
      · have hle := Nat.le_of_not_lt hn
        rw [result_of_length_le hle, result_of_length_le (h ▸ hle)]
    · have hn : n + 1 < (ofText a).items.length := by
        rw [Ne, result_eof_iff] at hne
        exact Nat.lt_of_not_le hne
      simpa using (hitem (n + 1) hn).2

theorem Alike.symm (h : (ofText a).Alike (ofText b)) : (ofText b).Alike (ofText a) :=
  alike_iff.mpr (alike_iff.mp h).symm

instance : Decidable ((ofText a).Alike (ofText b)) := decidable_of_iff _ alike_iff.symm

/-! ## Going on -/

theorem after_after (l : Lexer) (k n : Nat) : (l.after k).after n = l.after (k + n) := by
  induction n with
  | zero => rfl
  | succ n ih =>
    rw [after, ih]
    rfl

theorem Alike.after (h : l.Alike m) (k : Nat) : (l.after k).Alike (m.after k) := by
  refine ⟨fun n => ?_, fun n hne => ?_⟩
  · rw [result, result, after_after, after_after]
    exact h.results (k + n)
  · rw [result, after_after] at hne
    rw [adjoins, adjoins, after_after, after_after]
    exact h.gaps (k + n) hne

end Lexer

end Source

end Kaleidoscope
