import JavaSyntax.Literal.Quoted
import JavaSyntax.Source.Text

/-!
What literals are refused for. A number is refused for a stray underscore before it is read at all,
and after that for its form or its size; a text between quotes for an escape, or for not being one
character.
-/

namespace JavaSyntax.Literal

variable {text : String} {negated : Bool} {error : LiteralError}

theorem map_error {ε α β : Type} {e : ε} {f : α → β} {r : Except ε α} (h : r.map f = .error e) :
    r = .error e := by
  cases r with
  | error e' =>
    cases h
    rfl
  | ok out => cases h

theorem strayUnderscore?_offset {isDigit : Char → Bool} {before : Option Char} {offset o : Nat}
    {cs : List Char} (h : strayUnderscore? isDigit before offset cs = some o) :
    ∃ front back, cs = front ++ '_' :: back ∧ o = offset + byteLength front := by
  fun_induction strayUnderscore? isDigit before offset cs with
  | case1 => cases h
  | case2 before offset cs _ ih =>
    obtain ⟨front, back, rfl, rfl⟩ := ih h
    exact ⟨'_' :: front, back, rfl, Nat.add_assoc ..⟩
  | case3 before offset cs _ =>
    cases h
    exact ⟨[], cs, rfl, rfl⟩
  | case4 before offset c cs _ ih =>
    obtain ⟨front, back, rfl, rfl⟩ := ih h
    exact ⟨c :: front, back, rfl, Nat.add_assoc ..⟩

/-- The culprit is an underscore of the text. -/
theorem checkUnderscores_error {cs : List Char} (h : checkUnderscores cs = .error error) :
    ∃ front back, cs = front ++ '_' :: back ∧ error = .illegalUnderscore (byteLength front) := by
  unfold checkUnderscores at h
  dsimp only at h
  split at h
  · rename_i offset hstray
    cases h
    obtain ⟨front, back, hcs, rfl⟩ := strayUnderscore?_offset hstray
    exact ⟨front, back, hcs, by rw [Nat.zero_add]⟩
  · cases h

theorem integer_refused (h : checkUnderscores text.toList = .error error) :
    integer text negated = .error error := by
  unfold integer
  simp only [h, bind, Except.bind]

theorem integer_error (h : integer text negated = .error error) :
    checkUnderscores text.toList = .error error ∨ error = .intTooLarge := by
  cases hcheck : checkUnderscores text.toList with
  | error e =>
    obtain rfl := Except.error.inj ((integer_refused hcheck).symm.trans h)
    exact .inl rfl
  | ok _ =>
    right
    unfold integer at h
    simp only [hcheck, bind, Except.bind] at h
    repeat' split at h
    all_goals cases h
    all_goals rfl

theorem floating_refused (h : checkUnderscores text.toList = .error error) :
    floating text negated = .error error := by
  unfold floating
  simp only [h, bind, Except.bind]

theorem floating_error (h : floating text negated = .error error) :
    checkUnderscores text.toList = .error error ∨
      error = .malformedFp ∨ error = .fpTooLarge ∨ error = .fpTooSmall := by
  cases hcheck : checkUnderscores text.toList with
  | error e =>
    obtain rfl := Except.error.inj ((floating_refused hcheck).symm.trans h)
    exact .inl rfl
  | ok _ =>
    right
    unfold floating at h
    simp only [hcheck, bind, Except.bind] at h
    repeat' split at h
    all_goals cases h
    · exact .inl rfl
    · exact .inr (.inl rfl)
    · exact .inr (.inr rfl)

theorem body_error {quote : Char} (h : body quote text = .error error) :
    ∃ o, error = .illegalEscape o := by
  unfold body at h
  dsimp only at h
  split at h
  · cases h
  · cases h
    exact ⟨_, rfl⟩

theorem textBlockValue_error (h : textBlockValue text = .error error) :
    error = .illegalEscape 0 := by
  unfold textBlockValue at h
  dsimp only at h
  split at h
  · cases h
  · cases h
    rfl

theorem charValue_error (h : charValue text = .error error) :
    body '\'' text = .error error ∨ error = .unclosedChar := by
  unfold charValue at h
  cases hbody : body '\'' text with
  | error e =>
    rw [hbody] at h
    cases h
    exact .inl rfl
  | ok out =>
    simp only [hbody, bind, Except.bind] at h
    split at h
    · cases h
    · cases h
      exact .inr rfl

end JavaSyntax.Literal
