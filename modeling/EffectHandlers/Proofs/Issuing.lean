import EffectHandlers.Proofs.Labels
/-!
# Issued labels

No list of the labels that were handed out is kept: the query compares a label with zero, with the
counter, and with the label that is never handed out. The comparisons tell the labels that were
handed out from all other negative ones, whatever the history of the thread; between the last
label that counts down to a word and the first positive one there is zero, which the query takes
for issued in every state.
-/

namespace EffectHandlers.Machine

variable {ω : Type} [Contents ω] {Γ : Library ω} {m : Machine ω} {label : Int} {n : Nat}

/-- The label was returned to whoever asked for one: it was handed out, and counting on from it
stayed within the words. -/
def LabelReturned (Γ : Library ω) (m₀ : Machine ω) (n : Nat) (label : Int) : Prop :=
  HandedOut Γ m₀ n label ∧ Word.Fits (label - 1)

omit [Contents ω] in
/-- What the comparisons say of a word. -/
theorem isIssued_iff (hword : Word.Fits label) :
    m.chain.isIssued label = true ↔
      0 < label ∨ retiredLabel < label ∧ m.chain.nextLabel < label := by
  have hlow : retiredLabel ≤ label := hword.1
  simp only [Chain.isIssued, Bool.or_eq_true, Bool.and_eq_true, decide_eq_true_eq, bne_iff_ne]
  omega

/-- The labels that were returned are negative, and lie above the counter and the retired label. -/
theorem labelReturned_iff (settings : SettingsSlot) (cells : List ω) (statics : List Owned)
    (main : Comp ω) (n : Nat) (label : Int) :
    LabelReturned Γ (start settings cells statics main) n label ↔
      retiredLabel < label ∧
        (run Γ n (start settings cells statics main)).chain.nextLabel < label ∧ label < 0 := by
  have hstart : (start settings cells statics main).chain.nextLabel = -1 := rfl
  rw [LabelReturned, HandedOut, exists_handsOut_iff, hstart]
  simp only [Word.Fits, Word.min, Word.max, retiredLabel]
  omega

/-- In every run, a word is taken for issued exactly if it is positive, was returned as a fresh
label, or is zero. Asking changes nothing. -/
theorem issued_labels_known (settings : SettingsSlot) (cells : List ω) (statics : List Owned)
    (main : Comp ω) (n : Nat) (hword : Word.Fits label) :
    ∃ known : Bool,
      (run Γ n (start settings cells statics main)).answer (.isIssued label) =
        (.bool known, run Γ n (start settings cells statics main)) ∧
      (known = true ↔
        0 < label ∨ LabelReturned Γ (start settings cells statics main) n label ∨ label = 0) := by
  refine ⟨_, rfl, ?_⟩
  rw [isIssued_iff hword, labelReturned_iff]
  have hnext := (nextLabel_run (Γ := Γ) (start settings cells statics main) n).2
  have hstart : (start settings cells statics main).chain.nextLabel = -1 := rfl
  simp only [retiredLabel]
  omega

/-- A program that asks for two labels. -/
def countingDown : Comp Unit := .ask .freshLabel fun _ => .ask .freshLabel .done

/-- The second label of `countingDown` is known. -/
theorem issued_labels_known_countingDown :
    Word.Fits (-2) ∧ LabelReturned reader (start {} [()] [] countingDown) 2 (-2) ∧
      (run reader 2 (start {} [()] [] countingDown)).answer (.isIssued (-2)) =
        (.bool true, run reader 2 (start {} [()] [] countingDown)) := by
  have hword : Word.Fits (-2) := by decide
  have hreturned : LabelReturned reader (start {} [()] [] countingDown) 2 (-2) :=
    ⟨⟨1, Nat.one_lt_two, rfl, .inl ⟨_, rfl, rfl⟩⟩, by decide⟩
  obtain ⟨known, hanswer, hknown⟩ :=
    issued_labels_known (Γ := reader) {} [()] [] countingDown 2 hword
  rw [hanswer, hknown.mpr (.inr (.inl hreturned))]
  exact ⟨hword, hreturned, rfl⟩

/-- Zero is taken for issued once `countingDown` has a label, though it is not positive and no call
returned it. -/
theorem zero_taken_for_issued :
    (run reader 1 (start {} [()] [] countingDown)).answer (.isIssued 0) =
        (.bool true, run reader 1 (start {} [()] [] countingDown)) ∧
      ¬ (0 < (0 : Int) ∨ LabelReturned reader (start {} [()] [] countingDown) 1 0) := by
  refine ⟨rfl, ?_⟩
  rintro (hpositive | hreturned)
  · exact Int.lt_irrefl 0 hpositive
  · obtain ⟨-, -, hnegative⟩ := (labelReturned_iff {} [()] [] countingDown 1 0).mp hreturned
    exact Int.lt_irrefl 0 hnegative

end EffectHandlers.Machine
