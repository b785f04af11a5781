import PatternSweep.Proofs.FaultPlaces

/-!
# Faults that stay when the text goes on

A pattern may be refused at a character or at its end. At the end a reader finds that something is
still missing, and the faults that say so are few (`SyntaxError.AtEnd`). Every other error was found
at a character, when the reader had not seen what follows it, so it is the error of every text that
starts in the same way (`errors_within_a_text_are_final`).
-/

namespace PatternSweep

/-- The error says that something is missing at the end of a text of `length` characters. -/
def SyntaxError.AtEnd (length : Nat) (e : SyntaxError) : Prop :=
  match e.fault with
  | .emptyPattern | .unexpectedEnd | .unclosedGroup | .unterminatedClass | .danglingEscape => True
  | .emptyAlternative => e.offset = length
  | _ => False

namespace Reader

variable {r : Reader} {e : SyntaxError}

theorem atEnd_of_finishFactor (h : r.finishFactor = .error e) : e.AtEnd r.offset := by
  unfold finishFactor at h
  split at h
  · cases h
    trivial
  · split at h
    · cases h
      rfl
    · cases h
      trivial
    · cases h

/-- A reader that refuses the end of a text finds something missing there. -/
theorem atEnd_of_finish (h : r.finish = .error e) : e.AtEnd r.offset := by
  obtain ⟨n, stack, draft, mode⟩ := r
  cases mode with
  | factor => exact atEnd_of_finishFactor h
  | quantifier p => exact atEnd_of_finishFactor (r := ⟨n, stack, draft.push p, .quantifier p⟩) h
  | groupStart start =>
    cases h
    rfl
  | groupKind | escape | bounds | bracketStart | brackets =>
    cases h
    trivial

end Reader

/-- An error that is not at the end was found at a character, whatever follows. -/
theorem Pattern.stops_of_parseChars {cs : List Char} {e : SyntaxError}
    (h : parseChars cs = .error e) (hend : ¬e.AtEnd cs.length) :
    cs ≠ [] ∧ Reader.start.Stops cs e := by
  rcases parseChars_eq_error_iff.1 h with ⟨-, rfl⟩ | ⟨hne, hstops | ⟨r, hruns, hfinish⟩⟩
  · exact absurd trivial hend
  · exact ⟨hne, hstops⟩
  · -- the offset of a reader counts the characters that it has taken
    have hoffset : r.offset = cs.length := (Reader.located_start.run hruns).offset
    exact absurd (hoffset ▸ Reader.atEnd_of_finish hfinish) hend

/-- **Errors within a text are final.** A text that is refused for another reason than that
something is missing at its end is refused with the same error, at the same offset, whatever is
written behind it. -/
theorem errors_within_a_text_are_final (written rest : String) (e : SyntaxError)
    (h : Pattern.parse written = .error e) (hend : ¬e.AtEnd written.toList.length) :
    Pattern.parse (written ++ rest) = .error e := by
  obtain ⟨hne, hstops⟩ := Pattern.stops_of_parseChars h hend
  unfold Pattern.parse
  rw [String.toList_append]
  refine Pattern.parseChars_eq_error_iff.2 (Or.inr ⟨?_, Or.inl (hstops.append _)⟩)
  exact List.append_ne_nil_of_left_ne_nil hne _

/-- A branch without a factor in a group: nothing behind the closing parenthesis mends it. -/
theorem errors_within_a_text_are_final_in_group :
    Pattern.parse "(a|)" = .error ⟨.emptyAlternative, 3⟩ ∧
      ¬SyntaxError.AtEnd 4 ⟨.emptyAlternative, 3⟩ ∧
      Pattern.parse ("(a|)" ++ "b)") = .error ⟨.emptyAlternative, 3⟩ := by
  have herror : Pattern.parse "(a|)" = .error ⟨.emptyAlternative, 3⟩ := rfl
  have hend : ¬SyntaxError.AtEnd 4 ⟨.emptyAlternative, 3⟩ := nofun
  exact ⟨herror, hend, errors_within_a_text_are_final "(a|)" "b)" _ herror hend⟩

end PatternSweep
