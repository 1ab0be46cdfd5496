import JavaSyntax.Literal.Number
import JavaSyntax.Proofs.Lexemes
import JavaSyntax.Proofs.Refusals
import Mathlib.Data.List.DropRight

/-!
Underscores in numbers. An underscore may stand only in a run between two digits of the number; the
check goes through the text once and reports the first one that does not.
-/

namespace JavaSyntax.Numeral

/-- A character of a number, and whether it is one of the number's digits. -/
structure Glyph where
  char : Char
  isDigit : Bool

def Glyph.isUnderscore (g : Glyph) : Bool :=
  g.char == '_'

/-- At an index there is an underscore of a run that has a digit right in front of it and one right
behind it. A digit is no underscore, so the run is as long as can be. -/
def Separates (gs : List Glyph) (i : Nat) : Prop :=
  ∃ (before : List Glyph) (first : Glyph) (run : List Glyph) (last : Glyph) (after : List Glyph),
    gs = before ++ first :: (run ++ last :: after) ∧
    first.isDigit = true ∧ last.isDigit = true ∧ (∀ g ∈ run, g.isUnderscore = true) ∧
    before.length < i ∧ i ≤ before.length + run.length

/-- At an index there is an underscore that does not stand between two digits. -/
def IsStray (gs : List Glyph) (i : Nat) : Prop :=
  gs[i]?.any Glyph.isUnderscore = true ∧ ¬Separates gs i

/-- The first of the underscores that do not stand between two digits. -/
structure FirstStray (gs : List Glyph) (i : Nat) : Prop where
  stray : IsStray gs i
  first : ∀ j < i, ¬IsStray gs j

section Runs

variable {pre post : List Glyph} {g : Glyph}

/-- The last character that is no underscore. -/
def lastOther (gs : List Glyph) : Option Glyph :=
  (gs.rdropWhile Glyph.isUnderscore).getLast?

/-- The first character that is no underscore. -/
def firstOther (gs : List Glyph) : Option Glyph :=
  (gs.dropWhile Glyph.isUnderscore).head?

theorem mem_of_lastOther {gs : List Glyph} (h : lastOther gs = some g) : g ∈ gs :=
  (List.rdropWhile_prefix _ gs).subset (List.mem_of_getLast? h)

theorem lastOther_of_run {before run : List Glyph} {first : Glyph}
    (hfirst : first.isUnderscore = false) (hrun : ∀ g ∈ run, g.isUnderscore = true) :
    lastOther (before ++ first :: run) = some first := by
  induction run using List.reverseRecOn with
  | nil =>
    unfold lastOther
    rw [List.rdropWhile_concat_neg _ _ _ (by simp [hfirst]), List.getLast?_concat]
  | append_singleton run g ih =>
    have hg : g.isUnderscore = true := hrun g (by simp)
    unfold lastOther at ih ⊢
    rw [← List.cons_append, ← List.append_assoc, List.rdropWhile_concat_pos _ _ _ hg]
    exact ih fun x hx => hrun x (by simp [hx])

theorem firstOther_of_run {run after : List Glyph} {last : Glyph}
    (hlast : last.isUnderscore = false) (hrun : ∀ g ∈ run, g.isUnderscore = true) :
    firstOther (run ++ last :: after) = some last := by
  unfold firstOther
  rw [List.dropWhile_append_of_pos hrun, List.dropWhile_cons_of_neg (by simp [hlast])]
  rfl

/-- A place inside a run cuts the run in two. -/
theorem cut_run {before run after : List Glyph} {first last : Glyph}
    (heq : pre ++ g :: post = before ++ first :: (run ++ last :: after)) (hne : g ≠ last)
    (hlow : before.length < pre.length) (hhigh : pre.length ≤ before.length + run.length + 1) :
    ∃ left right, run = left ++ g :: right ∧ pre = before ++ first :: left ∧
      post = right ++ last :: after := by
  have hfront : before ++ [first] ++ (run ++ last :: after) = pre ++ g :: post := by
    rw [heq, List.append_assoc]
    rfl
  rcases List.append_eq_append_iff.mp hfront with ⟨left, hpre, hrest⟩ | ⟨more, hbefore, hrest⟩
  · rcases List.append_eq_append_iff.mp hrest with ⟨more, hleft, hlast⟩ | ⟨right, hrun, hlast⟩
    · -- The place would lie behind the run.
      exfalso
      cases more with
      | nil => exact hne (List.cons.inj hlast).1.symm
      | cons x more =>
        rw [hpre, hleft] at hhigh
        simp only [List.length_append, List.length_cons, List.length_nil] at hhigh
        omega
    · cases right with
      | nil => exact absurd (List.cons.inj hlast).1 hne
      | cons x right =>
        obtain ⟨rfl, hpost⟩ := List.cons.inj hlast
        exact ⟨left, right, hrun, by rw [hpre, List.append_assoc]; rfl, hpost⟩
  · have hlength := congrArg List.length hbefore
    simp only [List.length_append, List.length_cons, List.length_nil] at hlength
    obtain rfl : more = [] := List.length_eq_zero_iff.mp (by omega)
    cases run with
    | nil => exact absurd (List.cons.inj hrest).1 hne
    | cons x run =>
      obtain ⟨rfl, hpost⟩ := List.cons.inj hrest
      exact ⟨[], run, rfl, by rw [List.append_nil] at hbefore; exact hbefore.symm, hpost⟩

/-- An underscore separates two digits if the next other characters on both sides are digits. -/
theorem separates_iff (hg : g.isUnderscore = true)
    (hdigits : ∀ x ∈ pre ++ g :: post, x.isDigit = true → x.isUnderscore = false) :
    Separates (pre ++ g :: post) pre.length ↔
      (lastOther pre).any Glyph.isDigit = true ∧ (firstOther post).any Glyph.isDigit = true := by
  constructor
  · rintro ⟨before, first, run, last, after, heq, hfirst, hlast, hrun, hlow, hhigh⟩
    have hfirst' : first.isUnderscore = false := hdigits first (by rw [heq]; simp) hfirst
    have hlast' : last.isUnderscore = false := hdigits last (by rw [heq]; simp) hlast
    have hne : g ≠ last := by
      rintro rfl
      rw [hg] at hlast'
      cases hlast'
    obtain ⟨left, right, rfl, rfl, rfl⟩ := cut_run heq hne hlow (by omega)
    rw [lastOther_of_run hfirst' fun x hx => hrun x (by simp [hx]),
      firstOther_of_run hlast' fun x hx => hrun x (by simp [hx])]
    exact ⟨hfirst, hlast⟩
  · rintro ⟨hfirst, hlast⟩
    obtain ⟨first, hfirst, hfirstDigit⟩ := (Option.any_eq_true _ _).mp hfirst
    obtain ⟨last, hlast, hlastDigit⟩ := (Option.any_eq_true _ _).mp hlast
    obtain ⟨before, hbefore⟩ := List.getLast?_eq_some_iff.mp hfirst
    obtain ⟨after, hafter⟩ := List.head?_eq_some_iff.mp hlast
    let left := pre.rtakeWhile Glyph.isUnderscore
    let right := post.takeWhile Glyph.isUnderscore
    have hpre : pre = before ++ first :: left := by
      rw [← List.rdropWhile_append_rtakeWhile (p := Glyph.isUnderscore) (l := pre), hbefore,
        List.append_assoc]
      rfl
    have hpost : post = right ++ last :: after := by
      rw [← hafter, List.takeWhile_append_dropWhile]
    have hleft : ∀ x ∈ left, x.isUnderscore = true := fun x hx => List.mem_rtakeWhile_imp hx
    have hright : ∀ x ∈ right, x.isUnderscore = true := fun x hx =>
      List.all_eq_true.mp List.all_takeWhile x hx
    refine ⟨before, first, left ++ g :: right, last, after, ?_, hfirstDigit, hlastDigit, ?_, ?_, ?_⟩
    · conv_lhs => rw [hpre, hpost]
      simp
    · simp only [List.mem_append, List.mem_cons]
      rintro x (hx | rfl | hx)
      · exact hleft x hx
      · exact hg
      · exact hright x hx
    · rw [hpre, List.length_append, List.length_cons]
      omega
    · conv_lhs => rw [hpre]
      simp only [List.length_append, List.length_cons]
      omega

end Runs

section Check

variable {p : Char → Bool} {gs pre post : List Glyph} {g : Glyph} {i n : Nat}

/-- The first stray underscore from an index on. -/
structure StrayFrom (gs : List Glyph) (n i : Nat) : Prop where
  stray : IsStray gs i
  le : n ≤ i
  first : ∀ j, n ≤ j → j < i → ¬IsStray gs j

theorem strayFrom_iff_first (h : ∀ j < n, ¬IsStray gs j) : StrayFrom gs n i ↔ FirstStray gs i := by
  constructor
  · intro hi
    refine ⟨hi.stray, fun j hj => ?_⟩
    rcases Nat.lt_or_ge j n with hlt | hle
    · exact h j hlt
    · exact hi.first j hle hj
  · intro hi
    exact ⟨hi.stray, Nat.le_of_not_lt fun hlt => h i hlt hi.stray, fun j _ hj => hi.first j hj⟩

theorem strayFrom_stray (h : IsStray gs n) : StrayFrom gs n i ↔ n = i := by
  constructor
  · intro hi
    exact Nat.le_antisymm hi.le (Nat.le_of_not_lt fun hlt => hi.first n (Nat.le_refl n) hlt h)
  · rintro rfl
    exact ⟨h, Nat.le_refl n, fun j hle hlt => absurd hlt (Nat.not_lt.mpr hle)⟩

theorem strayFrom_succ (h : ¬IsStray gs n) : StrayFrom gs n i ↔ StrayFrom gs (n + 1) i := by
  constructor
  · intro hi
    have hne : n ≠ i := fun heq => h (heq ▸ hi.stray)
    exact ⟨hi.stray, Nat.lt_of_le_of_ne hi.le hne, fun j hle hlt => hi.first j (by omega) hlt⟩
  · intro hi
    refine ⟨hi.stray, Nat.le_of_succ_le hi.le, fun j hle hlt => ?_⟩
    rcases Nat.eq_or_lt_of_le hle with rfl | hle
    · exact h
    · exact hi.first j hle hlt

theorem glyph_at : (pre ++ g :: post)[pre.length]? = some g := by
  rw [List.getElem?_append_right (Nat.le_refl _), Nat.sub_self]
  rfl

theorem isStray_iff (hg : g.isUnderscore = true) :
    IsStray (pre ++ g :: post) pre.length ↔ ¬Separates (pre ++ g :: post) pre.length := by
  unfold IsStray
  rw [glyph_at]
  simp [hg]

theorem any_firstOther (hpost : ∀ x ∈ post, x.isDigit = p x.char) :
    ((post.map Glyph.char).dropWhile (· == '_')).head?.any p =
      (firstOther post).any Glyph.isDigit := by
  rw [List.dropWhile_map, List.head?_map]
  show ((firstOther post).map Glyph.char).any p = _
  cases h : firstOther post with
  | none => rfl
  | some x =>
    have hmem : x ∈ post := (List.dropWhile_sublist _).subset (List.mem_of_head? h)
    exact (hpost x hmem).symm

/-- Where the check has gone through the characters of `pre`: from there on it tells digits by their
characters, and it kept the last character that was no underscore. -/
structure Reached (p : Char → Bool) (pre post : List Glyph) (before : Option Char) : Prop where
  plain : ∀ x ∈ pre ++ post, x.isDigit = true → x.isUnderscore = false
  agrees : ∀ x ∈ post, x.isDigit = p x.char
  narrow : ∀ x ∈ post, x.char.utf8Size = 1
  kept : before.any p = (lastOther pre).any Glyph.isDigit

namespace Reached

variable {before : Option Char}

theorem underscore (h : Reached p pre (g :: post) before) (hg : g.isUnderscore = true) :
    Reached p (pre ++ [g]) post before where
  plain := by
    rw [List.append_assoc]
    exact h.plain
  agrees := fun x hx => h.agrees x (List.mem_cons_of_mem g hx)
  narrow := fun x hx => h.narrow x (List.mem_cons_of_mem g hx)
  kept := by
    rw [h.kept]
    unfold lastOther
    rw [List.rdropWhile_concat_pos _ _ _ hg]

theorem other (h : Reached p pre (g :: post) before) (hg : g.isUnderscore = false) :
    Reached p (pre ++ [g]) post (some g.char) where
  plain := by
    rw [List.append_assoc]
    exact h.plain
  agrees := fun x hx => h.agrees x (List.mem_cons_of_mem g hx)
  narrow := fun x hx => h.narrow x (List.mem_cons_of_mem g hx)
  kept := by
    unfold lastOther
    rw [List.rdropWhile_concat_neg _ _ _ (by simp [hg]), List.getLast?_concat]
    exact (h.agrees g List.mem_cons_self).symm

/-- The next underscore is let through if it separates two digits. -/
theorem separates_iff (h : Reached p pre (g :: post) before) (hg : g.isUnderscore = true) :
    Separates (pre ++ g :: post) pre.length ↔
      (before.any p && ((post.map Glyph.char).dropWhile (· == '_')).head?.any p) = true := by
  rw [Numeral.separates_iff hg h.plain, h.kept,
    any_firstOther fun x hx => h.agrees x (List.mem_cons_of_mem g hx), Bool.and_eq_true]

end Reached

/-- From wherever it has reached, the check finds the first stray underscore from there on. -/
theorem strayUnderscore?_from {before : Option Char} (h : Reached p pre post before) :
    Literal.strayUnderscore? p before pre.length (post.map Glyph.char) = some i ↔
      StrayFrom (pre ++ post) pre.length i := by
  induction post generalizing pre before with
  | nil =>
    refine ⟨fun h => (nomatch h), fun hi => ?_⟩
    have hchar := hi.stray.1
    rw [List.append_nil, List.getElem?_eq_none hi.le] at hchar
    cases hchar
  | cons g post ih =>
    have hsize := h.narrow g List.mem_cons_self
    have hall : pre ++ g :: post = pre ++ [g] ++ post := by simp
    have hlength : pre.length + 1 = (pre ++ [g]).length := by simp
    rw [List.map_cons, Literal.strayUnderscore?]
    by_cases hg : g.char = '_'
    · have hunder : g.isUnderscore = true := by simp [Glyph.isUnderscore, hg]
      have hstray : IsStray (pre ++ g :: post) pre.length ↔ _ :=
        (isStray_iff hunder).trans (not_congr (h.separates_iff hunder))
      rw [if_pos hg]
      split
      · rename_i hboth
        rw [strayFrom_succ fun hs => hstray.mp hs hboth, hall, hlength]
        exact ih (h.underscore hunder)
      · rename_i hboth
        rw [strayFrom_stray (hstray.mpr hboth), Option.some.injEq]
    · have hunder : g.isUnderscore = false := by simpa [Glyph.isUnderscore] using hg
      have hstray : ¬IsStray (pre ++ g :: post) pre.length := by
        unfold IsStray
        rw [glyph_at]
        simp [hunder]
      rw [if_neg hg, hsize, strayFrom_succ hstray, hall, hlength]
      exact ih (h.other hunder)

end Check

/-! The characters of a number, told apart by the part they are in. -/

/-- Characters of which those of a class are digits. -/
def glyphsOf (isDigit : Char → Bool) (cs : List Char) : List Glyph :=
  cs.map fun c => ⟨c, isDigit c⟩

/-- Characters of which none is a digit of the number. -/
def signs (cs : List Char) : List Glyph :=
  glyphsOf (fun _ => false) cs

def Whole.glyphs (w : Whole) : List Glyph :=
  signs w.mark ++ (glyphsOf w.base.isDigit w.figures ++ signs w.suffix)

/-- The glyphs of a floating-point number, given whether its suffix passes for a digit. -/
def Fractional.glyphsWith (x : Fractional) (suffixCounts : Bool) : List Glyph :=
  signs x.mark ++ (glyphsOf x.base.isDigit x.whole ++ (signs x.point ++
    (glyphsOf x.base.isDigit x.fraction ++ (signs x.scale ++ (glyphsOf Char.isDigit x.power ++
      glyphsOf (fun _ => suffixCounts) x.suffix)))))

/-- The digits of a floating-point number are those of its whole part, fraction and exponent. -/
def Fractional.glyphs (x : Fractional) : List Glyph :=
  x.glyphsWith false

section Glyphs

variable {base : Base} {cs : List Char} {c : Char}

theorem map_glyphsOf (isDigit : Char → Bool) (cs : List Char) :
    (glyphsOf isDigit cs).map Glyph.char = cs := by
  unfold glyphsOf
  rw [List.map_map]
  exact List.map_id cs

theorem Whole.map_glyphs (w : Whole) : w.glyphs.map Glyph.char = w.chars := by
  simp only [Whole.glyphs, signs, List.map_append, map_glyphsOf, Whole.chars, List.append_assoc]

theorem Fractional.map_glyphs (x : Fractional) (suffixCounts : Bool) :
    (x.glyphsWith suffixCounts).map Glyph.char = x.chars := by
  simp only [Fractional.glyphsWith, signs, List.map_append, map_glyphsOf, Fractional.chars,
    List.append_assoc]

/-- The test that tells digits by their character alone. -/
def Base.test : Base → Char → Bool
  | .hexadecimal => isHexDigit
  | .decimal | .binary => Char.isDigit

/-- The test agrees on the character, which takes one byte and marks no base. -/
def Base.fits (base : Base) (g : Glyph) : Bool :=
  g.isDigit == base.test g.char && g.char.utf8Size == 1 && g.char != 'x' && g.char != 'X'

theorem Base.fits_iff {g : Glyph} : base.fits g = true ↔
    g.isDigit = base.test g.char ∧ g.char.utf8Size = 1 ∧ g.char ≠ 'x' ∧ g.char ≠ 'X' := by
  simp only [fits, Bool.and_eq_true, beq_iff_eq, bne_iff_ne, and_assoc]

theorem ascii_of_isDigit (h : c.isDigit = true) : c.toNat < 128 := by
  simp [Char.isDigit, UInt32.le_iff_toNat_le] at h
  omega

theorem ascii_of_isHexDigit (h : isHexDigit c = true) : c.toNat < 128 := by
  simp [isHexDigit, Char.isDigit, Char.le_def, UInt32.le_iff_toNat_le] at h
  omega

theorem ascii_of_isFigure (h : base.isFigure c = true) : c.toNat < 128 := by
  simp only [Base.isFigure, Bool.or_eq_true, beq_iff_eq] at h
  rcases h with h | rfl
  · cases base with
    | decimal => exact ascii_of_isDigit h
    | hexadecimal => exact ascii_of_isHexDigit h
    | binary =>
      simp only [Base.isDigit, Bool.or_eq_true, beq_iff_eq] at h
      rcases h with rfl | rfl <;> decide
  · decide

/-- What holds of each of the ASCII characters. -/
theorem of_ascii {q : Char → Prop} (hall : ∀ n : Fin 128, q (Char.ofNat n)) (h : c.toNat < 128) :
    q c := by
  have hchar := hall ⟨c.toNat, h⟩
  rwa [Char.ofNat_toNat] at hchar

theorem fits_figures (h : ∀ c ∈ cs, base.isFigure c = true) :
    ∀ g ∈ glyphsOf base.isDigit cs, base.fits g = true := by
  have hfits : ∀ n : Fin 128, base.isFigure (Char.ofNat n) = true →
      base.fits ⟨Char.ofNat n, base.isDigit (Char.ofNat n)⟩ = true := by
    cases base <;> decide
  intro g hg
  obtain ⟨c, hc, rfl⟩ := List.mem_map.mp hg
  exact of_ascii (q := fun c => base.isFigure c = true → base.fits ⟨c, base.isDigit c⟩ = true) hfits
    (ascii_of_isFigure (h c hc)) (h c hc)

/-- An exponent is decimal in every base. -/
theorem fits_power (h : ∀ c ∈ cs, Base.decimal.isFigure c = true) :
    ∀ g ∈ glyphsOf Char.isDigit cs, base.fits g = true := by
  have hfits : ∀ n : Fin 128, Base.decimal.isFigure (Char.ofNat n) = true →
      base.fits ⟨Char.ofNat n, (Char.ofNat n).isDigit⟩ = true := by
    cases base <;> decide
  intro g hg
  obtain ⟨c, hc, rfl⟩ := List.mem_map.mp hg
  exact of_ascii (q := fun c => Base.decimal.isFigure c = true → base.fits ⟨c, c.isDigit⟩ = true)
    hfits (ascii_of_isFigure (h c hc)) (h c hc)

theorem Whole.fits (w : Whole) :
    ∀ g ∈ glyphsOf w.base.isDigit w.figures ++ signs w.suffix, w.base.fits g = true := by
  have hsuffix : ∀ base : Base, ∀ s ∈ [[], ['l'], ['L']], ∀ g ∈ signs s, base.fits g = true := by
    intro base
    cases base <;> decide
  exact List.forall_mem_append.mpr
    ⟨fits_figures w.figures_all, hsuffix w.base w.suffix w.suffix_mem⟩

theorem Fractional.fits (x : Fractional) :
    ∀ g ∈ (x.glyphsWith (x.base == .hexadecimal)).drop x.mark.length, x.base.fits g = true := by
  have hpoint : ∀ base : Base, ∀ s ∈ [[], ['.']], ∀ g ∈ signs s, base.fits g = true := by
    intro base
    cases base <;> decide
  have hscale : ∀ base : Base, ∀ s ∈ [] :: scales base.scaleMarks, ∀ g ∈ signs s,
      base.fits g = true := by
    intro base
    cases base <;> decide
  have hsuffix : ∀ base : Base, ∀ s ∈ [[], ['f'], ['F'], ['d'], ['D']],
      ∀ g ∈ glyphsOf (fun _ => base == .hexadecimal) s, base.fits g = true := by
    intro base
    cases base <;> decide
  have hmark : (signs x.mark).length = x.mark.length := List.length_map _
  unfold glyphsWith
  rw [← hmark, List.drop_left]
  simp only [List.forall_mem_append]
  exact ⟨fits_figures x.whole_all, hpoint x.base x.point x.point_mem, fits_figures x.fraction_all,
    hscale x.base x.scale x.scale_mem, fits_power x.power_all,
    hsuffix x.base x.suffix x.suffix_mem⟩

/-- Behind the mark of its base no number has another one. -/
theorem isHexText_glyphs {mark : List Char} {rest : List Glyph} (hmark : mark ∈ base.marks)
    (hrest : ∀ g ∈ rest, base.fits g = true) :
    Literal.isHexText (mark ++ rest.map Glyph.char) = (base == .hexadecimal) := by
  have hplain (cs : List Char) (hcs : ∀ c ∈ cs, c ≠ 'x' ∧ c ≠ 'X') :
      Literal.isHexText cs = false := by
    unfold Literal.isHexText
    split
    · exact absurd rfl (hcs 'x' (by simp)).1
    · exact absurd rfl (hcs 'X' (by simp)).2
    · rfl
  have hchars : ∀ c ∈ rest.map Glyph.char, c ≠ 'x' ∧ c ≠ 'X' := by
    intro c hc
    obtain ⟨g, hg, rfl⟩ := List.mem_map.mp hc
    exact (Base.fits_iff.mp (hrest g hg)).2.2
  cases base with
  | decimal =>
    obtain rfl : mark = [] := List.mem_singleton.mp hmark
    exact hplain _ hchars
  | hexadecimal => rcases Base.mark_hexadecimal hmark with rfl | rfl <;> rfl
  | binary => rcases Base.mark_binary hmark with rfl | rfl <;> rfl

/-- The mark ends in a letter that is no digit of its base, so nothing leads on from it. -/
theorem strayUnderscore?_mark {mark : List Char} (hmark : mark ∈ base.marks) :
    ∃ before : Option Char, before.any base.test = false ∧ ∀ cs,
      Literal.strayUnderscore? base.test none 0 (mark ++ cs) =
        Literal.strayUnderscore? base.test before (signs mark).length cs := by
  cases base with
  | decimal =>
    obtain rfl : mark = [] := List.mem_singleton.mp hmark
    exact ⟨none, rfl, fun cs => rfl⟩
  | hexadecimal =>
    rcases Base.mark_hexadecimal hmark with rfl | rfl
    · exact ⟨some 'x', rfl, fun cs => rfl⟩
    · exact ⟨some 'X', rfl, fun cs => rfl⟩
  | binary =>
    rcases Base.mark_binary hmark with rfl | rfl
    · exact ⟨some 'b', rfl, fun cs => rfl⟩
    · exact ⟨some 'B', rfl, fun cs => rfl⟩

theorem isDigit_signs {g : Glyph} (hg : g ∈ signs cs) : g.isDigit = false := by
  obtain ⟨c, _, rfl⟩ := List.mem_map.mp hg
  rfl

theorem not_isStray_mark {mark : List Char} {rest : List Glyph} {i : Nat}
    (hmark : mark ∈ base.marks) (hi : i < (signs mark).length) :
    ¬IsStray (signs mark ++ rest) i := by
  have hplain : ∀ m ∈ base.marks, ∀ g ∈ signs m, g.isUnderscore = false := by
    cases base <;> decide
  intro hstray
  have hchar := hstray.1
  rw [List.getElem?_append_left hi] at hchar
  obtain ⟨g, hg, hunder⟩ := (Option.any_eq_true _ _).mp hchar
  rw [hplain mark hmark g (List.mem_of_getElem? hg)] at hunder
  cases hunder

theorem reached_mark {mark : List Char} {rest : List Glyph} {before : Option Char}
    (hrest : ∀ g ∈ rest, base.fits g = true) (hbefore : before.any base.test = false) :
    Reached base.test (signs mark) rest before where
  plain := by
    intro g hg hdigit
    rcases List.mem_append.mp hg with hg | hg
    · rw [isDigit_signs hg] at hdigit
      cases hdigit
    · have hunderscore : base.test '_' = false := by cases base <;> rfl
      simp only [Glyph.isUnderscore, beq_eq_false_iff_ne]
      intro heq
      rw [(Base.fits_iff.mp (hrest g hg)).1, heq, hunderscore] at hdigit
      cases hdigit
  agrees := fun g hg => (Base.fits_iff.mp (hrest g hg)).1
  narrow := fun g hg => (Base.fits_iff.mp (hrest g hg)).2.1
  kept := by
    rw [hbefore]
    cases hother : lastOther (signs mark) with
    | none => rfl
    | some g => exact (isDigit_signs (mem_of_lastOther hother)).symm

/-- The check reports the first stray underscore of a number. -/
theorem checkUnderscores_glyphs {mark : List Char} {rest : List Glyph} {i : Nat}
    (hmark : mark ∈ base.marks) (hrest : ∀ g ∈ rest, base.fits g = true) :
    Literal.checkUnderscores (mark ++ rest.map Glyph.char) = .error (.illegalUnderscore i) ↔
      FirstStray (signs mark ++ rest) i := by
  have htest : (if Literal.isHexText (mark ++ rest.map Glyph.char) = true then isHexDigit
      else Char.isDigit) = base.test := by
    rw [isHexText_glyphs hmark hrest]
    cases base <;> rfl
  obtain ⟨before, hbefore, hskip⟩ := strayUnderscore?_mark hmark
  have hfound : Literal.strayUnderscore? base.test none 0 (mark ++ rest.map Glyph.char) = some i ↔
      FirstStray (signs mark ++ rest) i := by
    rw [hskip, strayUnderscore?_from (reached_mark hrest hbefore),
      strayFrom_iff_first fun j hj => not_isStray_mark hmark hj]
  rw [← hfound]
  unfold Literal.checkUnderscores
  simp only [htest]
  split
  · rename_i offset hoffset
    rw [hoffset]
    simp
  · rename_i hnone
    rw [hnone]
    simp

theorem checkUnderscores_cases (cs : List Char) :
    Literal.checkUnderscores cs = .ok () ∨
      ∃ i, Literal.checkUnderscores cs = .error (.illegalUnderscore i) := by
  unfold Literal.checkUnderscores
  dsimp only
  split
  · exact .inr ⟨_, rfl⟩
  · exact .inl rfl

end Glyphs

/-- Every underscore stands between two digits. -/
def Tidy (gs : List Glyph) : Prop :=
  ∀ i, ¬IsStray gs i

theorem tidy_iff {gs : List Glyph} : Tidy gs ↔ ∀ i, ¬FirstStray gs i := by
  constructor
  · exact fun h i hi => h i hi.stray
  · intro h i
    induction i using Nat.strongRecOn with
    | ind i ih => exact fun hi => h i ⟨hi, ih⟩

namespace Whole

theorem checkUnderscores_iff (w : Whole) {i : Nat} :
    Literal.checkUnderscores w.chars = .error (.illegalUnderscore i) ↔ FirstStray w.glyphs i := by
  have hchars : w.chars =
      w.mark ++ (glyphsOf w.base.isDigit w.figures ++ signs w.suffix).map Glyph.char := by
    rw [← w.map_glyphs, Whole.glyphs, List.map_append, signs, map_glyphsOf]
  rw [hchars]
  exact checkUnderscores_glyphs w.mark_mem w.fits

theorem checkUnderscores_tidy_iff (w : Whole) :
    Literal.checkUnderscores w.chars = .ok () ↔ Tidy w.glyphs := by
  rw [tidy_iff]
  constructor
  · intro h i hi
    rw [w.checkUnderscores_iff.mpr hi] at h
    cases h
  · intro h
    rcases checkUnderscores_cases w.chars with hok | ⟨i, hi⟩
    · exact hok
    · exact absurd (w.checkUnderscores_iff.mp hi) (h i)

end Whole

section Last

variable {front : List Glyph} {g h : Glyph} {i : Nat}

/-- Whether the last character is a digit matters only to an underscore right in front of it. -/
theorem separates_concat (hend : front.getLast?.any Glyph.isUnderscore = false)
    (hs : Separates (front ++ [g]) i) : Separates (front ++ [h]) i := by
  obtain ⟨before, first, run, last, after, heq, hfirst, hlast, hrun, hlow, hhigh⟩ := hs
  rcases List.eq_nil_or_concat after with rfl | ⟨after, x, rfl⟩
  · exfalso
    have hsplit : front ++ [g] = (before ++ first :: run) ++ [last] := by
      rw [heq, List.append_assoc]
      rfl
    have hfront := (List.append_inj' hsplit rfl).1
    rcases List.eq_nil_or_concat run with rfl | ⟨run, y, rfl⟩
    · exact absurd hhigh (Nat.not_le.mpr hlow)
    · rw [hfront, List.concat_eq_append, ← List.cons_append, ← List.append_assoc,
        List.getLast?_concat] at hend
      have hy : y.isUnderscore = true := hrun y (by simp)
      rw [Option.any_some, hy] at hend
      cases hend
  · have hsplit : front ++ [g] = (before ++ first :: (run ++ last :: after)) ++ [x] := by
      rw [heq]
      simp
    have hfront := (List.append_inj' hsplit rfl).1
    refine ⟨before, first, run, last, after ++ [h], ?_, hfirst, hlast, hrun, hlow, hhigh⟩
    rw [hfront]
    simp

theorem isStray_concat (hend : front.getLast?.any Glyph.isUnderscore = false)
    (hchar : g.char = h.char) : IsStray (front ++ [g]) i ↔ IsStray (front ++ [h]) i := by
  have hany : (front ++ [g])[i]?.any Glyph.isUnderscore =
      (front ++ [h])[i]?.any Glyph.isUnderscore := by
    rw [List.getElem?_append, List.getElem?_append]
    split
    · rfl
    · rw [List.getElem?_singleton, List.getElem?_singleton]
      split
      · simp only [Option.any_some, Glyph.isUnderscore, hchar]
      · rfl
  unfold IsStray
  rw [hany]
  exact and_congr_right fun _ =>
    not_congr ⟨fun hs => separates_concat hend hs, fun hs => separates_concat hend hs⟩

theorem firstStray_concat (hend : front.getLast?.any Glyph.isUnderscore = false)
    (hchar : g.char = h.char) : FirstStray (front ++ [g]) i ↔ FirstStray (front ++ [h]) i := by
  constructor
  · intro hi
    exact ⟨(isStray_concat hend hchar).mp hi.stray,
      fun j hj hs => hi.first j hj ((isStray_concat hend hchar).mpr hs)⟩
  · intro hi
    exact ⟨(isStray_concat hend hchar).mpr hi.stray,
      fun j hj hs => hi.first j hj ((isStray_concat hend hchar).mp hs)⟩

end Last

namespace Fractional

/-- The check takes the suffix of a hexadecimal number for a digit. -/
theorem checkUnderscores_iff (x : Fractional) {i : Nat} :
    Literal.checkUnderscores x.chars = .error (.illegalUnderscore i) ↔
      FirstStray (x.glyphsWith (x.base == .hexadecimal)) i := by
  have hfits := x.fits
  have hchars := x.map_glyphs (x.base == .hexadecimal)
  have hmark : (signs x.mark).length = x.mark.length := List.length_map _
  unfold glyphsWith at hfits hchars ⊢
  rw [← hmark, List.drop_left] at hfits
  rw [← hchars, List.map_append, signs, map_glyphsOf]
  exact checkUnderscores_glyphs x.mark_mem hfits

/-- What stands in front of the suffix. -/
def body (x : Fractional) : List Char :=
  x.mark ++ (x.whole ++ (x.point ++ (x.fraction ++ (x.scale ++ x.power))))

/-- Whether the suffix passes for a digit matters only to an underscore right in front of it. -/
theorem firstStray_glyphs (x : Fractional) {i : Nat}
    (h : x.base = .hexadecimal → x.suffix ≠ [] → x.body.getLast? ≠ some '_') :
    FirstStray (x.glyphsWith (x.base == .hexadecimal)) i ↔ FirstStray x.glyphs i := by
  unfold glyphs
  by_cases hbase : x.base = .hexadecimal
  · rw [hbase]
    let front := signs x.mark ++ (glyphsOf x.base.isDigit x.whole ++ (signs x.point ++
      (glyphsOf x.base.isDigit x.fraction ++ (signs x.scale ++ glyphsOf Char.isDigit x.power))))
    have hglyphs (suffixCounts : Bool) :
        x.glyphsWith suffixCounts = front ++ glyphsOf (fun _ => suffixCounts) x.suffix := by
      simp only [glyphsWith, front, List.append_assoc]
    have hfront : front.map Glyph.char = x.body := by
      simp only [front, signs, List.map_append, map_glyphsOf, body]
    rw [hglyphs, hglyphs]
    cases hsuffix : x.suffix with
    | nil => rfl
    | cons c cs =>
      have hshort : ∀ s ∈ [[], ['f'], ['F'], ['d'], ['D']], s.length ≤ 1 := by decide
      have hlength := hshort x.suffix x.suffix_mem
      rw [hsuffix, List.length_cons] at hlength
      obtain rfl : cs = [] := List.length_eq_zero_iff.mp (by omega)
      refine firstStray_concat ?_ rfl
      have hlast := h hbase (by rw [hsuffix]; exact List.cons_ne_nil _ _)
      rw [← hfront, List.getLast?_map] at hlast
      cases hend : front.getLast? with
      | none => rfl
      | some g =>
        rw [hend] at hlast
        simpa [Glyph.isUnderscore] using hlast
  · have hfalse : (x.base == .hexadecimal) = false := by simpa using hbase
    rw [hfalse]

end Fractional

end JavaSyntax.Numeral

namespace JavaSyntax.Literal

variable {text : String} {negated : Bool} {i : Nat}

theorem integer_underscore_iff :
    integer text negated = .error (.illegalUnderscore i) ↔
      checkUnderscores text.toList = .error (.illegalUnderscore i) := by
  refine ⟨fun h => ?_, integer_refused⟩
  rcases integer_error h with h | h
  · exact h
  · cases h

theorem floating_underscore_iff :
    floating text negated = .error (.illegalUnderscore i) ↔
      checkUnderscores text.toList = .error (.illegalUnderscore i) := by
  refine ⟨fun h => ?_, floating_refused⟩
  rcases floating_error h with h | h | h | h
  · exact h
  all_goals cases h

section Tokens

open Numeral

variable {keepDocs : Bool} {source : String} {t : Token}

/-- A whole number is refused for an underscore exactly if one is stray, and told the first. -/
theorem integer_stray_iff (ht : .token t ∈ lex keepDocs source) (hk : t.kind = .integerLit) :
    (∃ w : Whole, w.chars = t.text.toList) ∧
      ∀ (w : Whole) (negated : Bool) (i : Nat), w.chars = t.text.toList →
        (integer t.text negated = .error (.illegalUnderscore i) ↔ FirstStray w.glyphs i) := by
  refine ⟨lex_whole ht hk, fun w negated i hw => ?_⟩
  rw [integer_underscore_iff, ← hw, w.checkUnderscores_iff]

/-- The same of a floating-point number, unless it is hexadecimal and has an underscore right in
front of its suffix: there the suffix passes for a digit, and the underscore goes through. -/
theorem floating_stray_iff (ht : .token t ∈ lex keepDocs source) (hk : t.kind = .floatingLit) :
    (∃ x : Fractional, x.chars = t.text.toList) ∧
      ∀ (x : Fractional) (negated : Bool) (i : Nat), x.chars = t.text.toList →
        (floating t.text negated = .error (.illegalUnderscore i) ↔
          FirstStray (x.glyphsWith (x.base == .hexadecimal)) i) ∧
        ((x.base = .hexadecimal → x.suffix ≠ [] → x.body.getLast? ≠ some '_') →
          (floating t.text negated = .error (.illegalUnderscore i) ↔ FirstStray x.glyphs i)) := by
  refine ⟨lex_fractional ht hk, fun x negated i hx => ?_⟩
  rw [floating_underscore_iff, ← hx, x.checkUnderscores_iff]
  exact ⟨Iff.rfl, x.firstStray_glyphs⟩

example : checkUnderscores "0x1p1_f".toList = .ok () := by decide

example : checkUnderscores "1e1_f".toList = .error (.illegalUnderscore 3) := by decide

end Tokens

end JavaSyntax.Literal
