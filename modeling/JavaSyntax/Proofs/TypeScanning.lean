import JavaSyntax.Proofs.Lookaheads
import JavaSyntax.Proofs.TypeReading

/-!
Looking past a type. The scanner that tells a variable declaration from an expression counts open
brackets, and a fused word closes several at once. Over pieces it closes them one by one; so what
spells a type without annotations in the wrong places is passed over, up to what follows it.
-/

namespace JavaSyntax

open Lookahead

/-- What follows the segments of a class type, as `skipSegments` finds it, over pieces. -/
def scan (fresh : Bool) : Nat → List Word → Option (List Word)
  | 0, w :: rest =>
    if fresh = true ∧ w.1 = .less then scan false 1 rest
    else
      match rest with
      | x :: more =>
        if w.1 = .dot ∧ x.1 = .identifier then scan true 0 more else some (w :: x :: more)
      | [] => some [w]
  | 0, [] => some []
  | _ + 1, [] => none
  | d + 1, w :: rest =>
    if w.1 = .less then scan false (d + 2) rest
    else if w.1 = .greater then scan false d rest
    else if isTypeArgPart w.1 then scan false (d + 1) rest
    else none

section Scan

variable {fresh : Bool} {d : Nat} {ws us rest : List Word} {w x : Word}

theorem scan_depth : scan fresh (d + 1) ws = scan false (d + 1) ws := by
  cases ws <;> rfl

theorem scan_less (h : w.1 = .less) : scan fresh (d + 1) (w :: rest) = scan false (d + 2) rest := by
  simp only [scan, h, if_true]

theorem scan_greater (h : w.1 = .greater) : scan fresh (d + 1) (w :: rest) = scan false d rest := by
  simp [scan, h]

theorem isTypeArgPart_ne {k : Kind} (h : isTypeArgPart k = true) : k ≠ .less ∧ k ≠ .greater := by
  constructor <;> rintro rfl <;> cases h

theorem scan_part (h : isTypeArgPart w.1 = true) :
    scan fresh (d + 1) (w :: rest) = scan false (d + 1) rest := by
  obtain ⟨hless, hgreater⟩ := isTypeArgPart_ne h
  simp [scan, h, hless, hgreater]

theorem scan_parts (h : ∀ w ∈ us, isTypeArgPart w.1 = true) :
    scan false (d + 1) (us ++ rest) = scan false (d + 1) rest := by
  induction us with
  | nil => rfl
  | cons w us ih =>
    obtain ⟨hw, hus⟩ := List.forall_mem_cons.mp h
    rw [List.cons_append, scan_part hw, ih hus]

theorem scan_cons : scan fresh 0 (w :: rest) =
    if fresh = true ∧ w.1 = .less then scan false 1 rest
    else if w.1 = .dot ∧ (rest.head?.any fun x => x.1 == .identifier) = true then
      scan true 0 (rest.drop 1)
    else some (w :: rest) := by
  cases rest <;> simp [scan]

/-- In front of what neither opens nor goes on with a segment the scanner stops. -/
theorem scan_stop (hless : fresh = true → w.1 ≠ .less) (hdot : w.1 ≠ .dot) :
    scan fresh 0 (w :: rest) = some (w :: rest) := by
  rw [scan_cons, if_neg fun h => hless h.1 h.2, if_neg fun h => hdot h.1]

theorem scan_segment (hdot : w.1 = .dot) (hname : x.1 = .identifier) :
    scan fresh 0 (w :: x :: rest) = scan true 0 rest := by
  simp [scan, hdot, hname]

theorem scan_angle : scan fresh d (fixed .greater :: rest) =
    scan false d (fixed .greater :: rest) := by
  cases d with
  | zero => rw [scan_stop (by simp [fixed]) (by simp [fixed]),
      scan_stop (by simp [fixed]) (by simp [fixed])]
  | succ d => exact scan_depth

/-- Closing brackets that are not needed are left. -/
theorem scan_angles (n : Nat) : scan false d (List.replicate n (fixed .greater) ++ rest) =
    if n ≤ d then scan false (d - n) rest
    else some (List.replicate (n - d) (fixed .greater) ++ rest) := by
  induction n generalizing d with
  | zero => simp
  | succ n ih =>
    rw [List.replicate_succ, List.cons_append]
    cases d with
    | zero =>
      rw [scan_stop (by simp) (by simp [fixed]), if_neg (by omega)]
      rfl
    | succ d =>
      rw [scan_greater rfl, ih]
      simp only [Nat.add_le_add_iff_right, Nat.add_sub_add_right]

end Scan

/-- A fused word is made of closing brackets, with an equals sign behind them if the scanner does
not take it for any. -/
theorem Word.pieces_of_fused {w : Word} (h : isFused w.1 = true) :
    ∃ n, n ≠ 0 ∧ (closers w.1 = n ∧ w.pieces = List.replicate n (fixed .greater) ∨
      closers w.1 = 0 ∧ w.pieces = List.replicate n (fixed .greater) ++ [fixed .assign]) := by
  obtain ⟨k, text⟩ := w
  cases k
  case shr => exact ⟨2, by decide, .inl ⟨rfl, rfl⟩⟩
  case ushr => exact ⟨3, by decide, .inl ⟨rfl, rfl⟩⟩
  case greaterEqual => exact ⟨1, by decide, .inr ⟨rfl, rfl⟩⟩
  case shrAssign => exact ⟨2, by decide, .inr ⟨rfl, rfl⟩⟩
  case ushrAssign => exact ⟨3, by decide, .inr ⟨rfl, rfl⟩⟩
  all_goals cases h

/-- What may follow a type where its closing brackets end. -/
def endsScan (k : Kind) : Bool :=
  k != .greater && k != .assign

theorem not_endsScan_angles {n : Nat} (hn : n ≠ 0) {rest : List Word} :
    ¬Heads endsScan (List.replicate n (fixed .greater) ++ rest) := by
  obtain ⟨m, rfl⟩ := Nat.exists_eq_succ_of_ne_zero hn
  exact fun h => by cases h (fixed .greater) rfl

/-- A name comes first among the pieces if it does among the words. -/
theorem head_pieces (ts : List Symbol) :
    ((pieces (ts.map Symbol.word)).head?.any fun w => w.1 == .identifier) =
      next [.identifier] ts := by
  cases ts with
  | nil => rfl
  | cons t more =>
    rw [List.map_cons, pieces_cons]
    rcases t.word.pieces_cases with hone | ⟨us, hfused⟩
    · rw [hone]
      simp [next, Symbol.word]
    · have ht : t.kind ≠ .identifier := fun h => by
        rw [Word.pieces_of_not_fused (by rw [show t.word.1 = .identifier from h]; rfl)] at hfused
        have hgreater : t.kind = .greater := congrArg Prod.fst (List.cons.inj hfused).1
        rw [h] at hgreater
        cases hgreater
      rw [hfused]
      simp [next, ht, fixed]

theorem pieces_drop_one {ts : List Symbol} (h : next [.identifier] ts = true) :
    (pieces (ts.map Symbol.word)).drop 1 = pieces ((ts.drop 1).map Symbol.word) := by
  cases ts with
  | nil => rfl
  | cons t more =>
    simp only [next, Bool.and_true, beq_iff_eq] at h
    rw [List.map_cons, pieces_cons,
      Word.pieces_of_not_fused (by rw [show t.word.1 = .identifier from h]; rfl)]
    rfl

/-- Over a fused word the scanner goes only if it needs all of its closing brackets. -/
theorem scan_fused {fresh : Bool} {d : Nat} {w : Word} {ws rest : List Word}
    (hw : isFused w.1 = true) (h : scan fresh d (w.pieces ++ ws) = some rest)
    (hrest : Heads endsScan rest) :
    0 < closers w.1 ∧ closers w.1 ≤ d ∧ scan false (d - closers w.1) ws = some rest := by
  obtain ⟨n, hn, hpieces⟩ := Word.pieces_of_fused hw
  have hangles (us : List Word) : scan fresh d (List.replicate n (fixed .greater) ++ us) =
      if n ≤ d then scan false (d - n) us
      else some (List.replicate (n - d) (fixed .greater) ++ us) := by
    rw [← scan_angles]
    obtain ⟨m, rfl⟩ := Nat.exists_eq_succ_of_ne_zero hn
    exact scan_angle
  rcases hpieces with ⟨hclosers, hpieces⟩ | ⟨-, hpieces⟩
  · rw [hpieces, hangles] at h
    rw [hclosers]
    split at h
    · rename_i hle
      exact ⟨Nat.pos_of_ne_zero hn, hle, h⟩
    · rename_i hle
      cases h
      exact absurd hrest (not_endsScan_angles (by omega))
  · rw [hpieces, List.append_assoc, hangles] at h
    split at h
    · generalize d - n = e at h
      cases e with
      | zero =>
        rw [List.singleton_append, scan_stop (by simp) (by simp [fixed])] at h
        cases h
        cases hrest (fixed .assign) rfl
      | succ e => cases h
    · rename_i hle
      cases h
      exact absurd hrest (not_endsScan_angles (by omega))

/-- Over words the scanner goes on behind the first of them as it does over pieces. -/
def StepsAlong (fresh : Bool) (d : Nat) (s : Symbol) (more : List Symbol) (rest : List Word) :
    Prop :=
  ∃ fresh' d' us, us <:+ more ∧ skipSegments fresh d (s :: more) = skipSegments fresh' d' us ∧
    scan fresh' d' (pieces (us.map Symbol.word)) = some rest

section Steps

variable {fresh : Bool} {d : Nat} {s : Symbol} {more : List Symbol} {rest : List Word}

theorem stepsAlong_fused (hfused : isFused s.kind = true)
    (h : scan fresh d (s.word.pieces ++ pieces (more.map Symbol.word)) = some rest)
    (hrest : Heads endsScan rest) : StepsAlong fresh d s more rest := by
  obtain ⟨hpos, hle, hscan⟩ := scan_fused hfused h hrest
  change 0 < closers s.kind at hpos
  change closers s.kind ≤ d at hle
  obtain ⟨e, rfl⟩ := Nat.exists_eq_succ_of_ne_zero
    (Nat.pos_iff_ne_zero.mp (Nat.lt_of_lt_of_le hpos hle))
  have hless : s.kind ≠ .less := fun hk => by rw [hk] at hfused; cases hfused
  refine ⟨false, e + 1 - closers s.kind, more, List.suffix_rfl, ?_, hscan⟩
  rw [skipSegments, if_neg hless, if_pos hpos, if_pos hle]

theorem stepsAlong_inside
    (h : scan fresh (d + 1) (s.word :: pieces (more.map Symbol.word)) = some rest) :
    StepsAlong fresh (d + 1) s more rest := by
  change (if s.kind = .less then _ else if s.kind = .greater then _ else
    if isTypeArgPart s.kind = true then _ else _) = _ at h
  unfold StepsAlong
  rw [skipSegments]
  by_cases hless : s.kind = .less
  · rw [if_pos hless] at h ⊢
    exact ⟨_, _, more, List.suffix_rfl, rfl, h⟩
  rw [if_neg hless] at h ⊢
  by_cases hgreater : s.kind = .greater
  · have hcloses : closers s.kind = 1 := by rw [hgreater]; rfl
    rw [if_pos hgreater] at h
    rw [hcloses, if_pos (by decide), if_pos (by omega)]
    exact ⟨_, _, more, List.suffix_rfl, rfl, h⟩
  rw [if_neg hgreater] at h
  by_cases hpart : isTypeArgPart s.kind = true
  · have hcloses : ¬0 < closers s.kind := by
      revert hpart
      cases s.kind <;> decide
    rw [if_pos hpart] at h
    rw [if_neg hcloses, if_pos hpart]
    exact ⟨_, _, more, List.suffix_rfl, rfl, h⟩
  · rw [if_neg hpart] at h
    cases h

/-- Outside of brackets the scanner may stop. -/
theorem stops_or_stepsAlong
    (h : scan fresh 0 (s.word :: pieces (more.map Symbol.word)) = some rest) :
    skipSegments fresh 0 (s :: more) = some (s :: more) ∧
        s.word :: pieces (more.map Symbol.word) = rest ∨
      StepsAlong fresh 0 s more rest := by
  rw [scan_cons, head_pieces] at h
  unfold StepsAlong
  rw [skipSegments_cons]
  change (if fresh = true ∧ s.kind = .less then _ else
    if s.kind = .dot ∧ next [.identifier] more = true then _ else _) = _ at h
  by_cases hless : fresh = true ∧ s.kind = .less
  · rw [if_pos hless] at h ⊢
    exact .inr ⟨_, _, more, List.suffix_rfl, rfl, h⟩
  rw [if_neg hless] at h ⊢
  by_cases hdot : s.kind = .dot ∧ next [.identifier] more = true
  · rw [if_pos hdot, pieces_drop_one hdot.2] at h
    rw [if_pos hdot]
    exact .inr ⟨_, _, more.drop 1, List.drop_suffix .., rfl, h⟩
  · rw [if_neg hdot] at h ⊢
    exact .inl ⟨rfl, Option.some.inj h⟩

end Steps

/-- What the scanner finds over pieces it finds over words, unless it stops inside one. -/
theorem skipSegments_of_scan {fresh : Bool} {d : Nat} {ts : List Symbol} {rest : List Word}
    (h : scan fresh d (pieces (ts.map Symbol.word)) = some rest) (hrest : Heads endsScan rest) :
    ∃ us, skipSegments fresh d ts = some us ∧ us <:+ ts ∧ pieces (us.map Symbol.word) = rest := by
  induction hlength : ts.length using Nat.strongRecOn generalizing fresh d ts with
  | ind n ih =>
    subst hlength
    cases ts with
    | nil =>
      cases d with
      | zero =>
        cases h
        exact ⟨[], rfl, List.suffix_rfl, rfl⟩
      | succ d => cases h
    | cons s more =>
      have hstep (h : StepsAlong fresh d s more rest) :
          ∃ us, skipSegments fresh d (s :: more) = some us ∧ us <:+ s :: more ∧
            pieces (us.map Symbol.word) = rest := by
        obtain ⟨fresh', d', us, hus, hskip, hscan⟩ := h
        obtain ⟨vs, hvs, hsuffix, hpieces⟩ :=
          ih us.length (Nat.lt_succ_of_le hus.length_le) hscan rfl
        exact ⟨vs, hskip.trans hvs, hsuffix.trans (hus.trans (List.suffix_cons ..)), hpieces⟩
      rw [List.map_cons, pieces_cons] at h
      cases hfused : isFused s.kind with
      | true => exact hstep (stepsAlong_fused hfused h hrest)
      | false =>
        have hword : s.word.pieces = [s.word] := Word.pieces_of_not_fused hfused
        rw [hword, List.singleton_append] at h
        cases d with
        | zero =>
          rcases stops_or_stepsAlong h with ⟨hstop, hpieces⟩ | hsteps
          · refine ⟨s :: more, hstop, List.suffix_rfl, ?_⟩
            rw [List.map_cons, pieces_cons, hword]
            exact hpieces
          · exact hstep hsteps
        | succ d => exact hstep (stepsAlong_inside h)

/-! Inside brackets. -/

theorem Dotted.parts {names : List String} {ws : List Word} (h : Dotted names ws) :
    ∀ w ∈ ws, isTypeArgPart w.1 = true := fun w hw => by
  rcases h.kinds w hw with hk | hk <;> (rw [hk]; rfl)

theorem Markers.parts {annotations : Tree (.list .annot)} {us : List Word}
    (h : Markers annotations us) : ∀ w ∈ us, isTypeArgPart w.1 = true := by
  induction h with
  | nil => exact List.forall_mem_nil _
  | cons hat hname _ ih =>
    simp only [List.forall_mem_cons, List.forall_mem_append]
    exact ⟨by rw [hat]; rfl, hname.parts, ih⟩

theorem Brackets.parts {n : Nat} {ws : List Word} (h : Brackets n ws) :
    ∀ w ∈ ws, isTypeArgPart w.1 = true := fun w hw => by
  rcases h.kinds w hw with hk | hk <;> (rw [hk]; rfl)

/-- Words that the scanner goes over between brackets, which are closed as often as opened. -/
structure Passed (us : List Word) : Prop where
  scan (d : Nat) (rest : List Word) : scan false (d + 1) (us ++ rest) = scan false (d + 1) rest
  balanced : (us.map Prod.fst).count .less = (us.map Prod.fst).count .greater

section Passed

variable {us vs : List Word} {l g : Word}

theorem Passed.parts (h : ∀ w ∈ us, isTypeArgPart w.1 = true) : Passed us where
  scan _ _ := scan_parts h
  balanced := by
    have hnone {k : Kind} (hk : isTypeArgPart k = false) : (us.map Prod.fst).count k = 0 := by
      refine List.count_eq_zero.mpr fun hmem => ?_
      obtain ⟨w, hw, rfl⟩ := List.mem_map.mp hmem
      rw [h w hw] at hk
      cases hk
    rw [hnone rfl, hnone rfl]

theorem Passed.append (h : Passed us) (h' : Passed vs) : Passed (us ++ vs) where
  scan d rest := by rw [List.append_assoc, h.scan, h'.scan]
  balanced := by rw [List.map_append, List.count_append, List.count_append, h.balanced, h'.balanced]

theorem Passed.angles (h : Passed us) (hl : l.1 = .less) (hg : g.1 = .greater) :
    Passed (l :: (us ++ [g])) where
  scan d rest := by
    rw [List.cons_append, List.append_assoc, scan_less hl, h.scan]
    exact scan_greater hg
  balanced := by
    simp only [List.map_cons, List.map_append, List.map_nil, hl, hg, List.count_cons_self,
      List.count_append, List.count_cons_of_ne (show Kind.less ≠ .greater by decide),
      List.count_cons_of_ne (show Kind.greater ≠ .less by decide), List.count_nil, h.balanced]

end Passed

theorem Spells.passed {part : TypePart} {us : List Word} (h : Spells part us)
    (hus : ∀ w ∈ us, w.1 ≠ .lparen) : Passed us := by
  induction h with
  | first hname => exact .parts (List.forall_mem_singleton.mpr (by rw [hname]; rfl))
  | fold _ _ hdot hannotated hname ih ih' | nest _ _ _ hdot hannotated hname ih ih' =>
    simp only [List.forall_mem_append, List.forall_mem_cons] at hus
    obtain ⟨hbefore, hargs, -, hvs, -⟩ := hus
    refine (ih hbefore).append ((ih' hargs).append (.parts ?_))
    simp only [List.forall_mem_cons, List.forall_mem_append]
    exact ⟨by rw [hdot]; rfl, (hannotated.markers hvs).parts, by rw [hname]; rfl,
      List.forall_mem_nil _⟩
  | closed => exact .parts (List.forall_mem_nil _)
  | empty hl hg => exact @Passed.angles [] _ _ (.parts (List.forall_mem_nil _)) hl hg
  | listed hl hg _ ih =>
    simp only [List.forall_mem_append, List.forall_mem_cons] at hus
    exact (ih hus.2.1).angles hl hg
  | one _ ih | typeArg _ ih => exact ih hus
  | @more _ _ _ _ comma _ hcomma _ ih ih' =>
    simp only [List.forall_mem_append, List.forall_mem_cons] at hus
    rw [← List.singleton_append (x := comma)]
    exact (ih hus.1).append ((Passed.parts (List.forall_mem_singleton.mpr
      (by rw [hcomma]; rfl))).append (ih' hus.2.2))
  | wildcard hannotated hquestion =>
    obtain ⟨hvs, -⟩ := List.forall_mem_append.mp hus
    exact .parts (List.forall_mem_append.mpr ⟨(hannotated.markers hvs).parts,
      List.forall_mem_singleton.mpr (by rw [hquestion]; rfl)⟩)
  | wildcardExtends hannotated hquestion hbound _ ih
  | wildcardSuper hannotated hquestion hbound _ ih =>
    simp only [List.forall_mem_append, List.forall_mem_cons] at hus
    obtain ⟨hvs, -, -, hus⟩ := hus
    exact (Passed.parts (hannotated.markers hvs).parts).append ((@Passed.parts [_, _]
      (List.forall_mem_cons.mpr ⟨by rw [hquestion]; rfl,
        List.forall_mem_singleton.mpr (by rw [hbound]; rfl)⟩)).append (ih hus))
  | primitive hprimitive hdims =>
    refine .parts (List.forall_mem_cons.mpr ⟨?_, hdims.parts⟩)
    unfold isTypeArgPart
    rw [hprimitive]
    rfl
  | classType _ _ hdims ih ih' =>
    simp only [List.forall_mem_append] at hus
    exact (ih hus.1).append ((ih' hus.2.1).append (.parts hdims.parts))
  | type hannotated _ ih =>
    obtain ⟨hvs, hus⟩ := List.forall_mem_append.mp hus
    exact (Passed.parts (hannotated.markers hvs).parts).append (ih hus)

/-! Outside brackets, where annotations stop the scanner. -/

/-- Behind a dot annotations stand between brackets only. -/
def AnnotatesInside (ks : List Kind) : Prop :=
  ∀ i < ks.length, ks[i]? = some .dot → ks[i + 1]? = some .atSign →
    (ks.take i).count .greater < (ks.take i).count .less

instance (ks : List Kind) : Decidable (AnnotatesInside ks) :=
  inferInstanceAs (Decidable (∀ i < ks.length, _))

theorem AnnotatesInside.left {ks ls : List Kind} (h : AnnotatesInside (ks ++ ls)) :
    AnnotatesInside ks := by
  intro i hi hdot hat
  obtain ⟨hnext, -⟩ := List.getElem?_eq_some_iff.mp hat
  have hfewer := h i (by rw [List.length_append]; omega)
    (by rw [List.getElem?_append_left hi, hdot]) (by rw [List.getElem?_append_left hnext, hat])
  rwa [List.take_append_of_le_length (Nat.le_of_lt hi)] at hfewer

/-- Behind a dot that no bracket encloses there are no annotations. -/
theorem AnnotatesInside.eq_nil {annotations : Tree (.list .annot)} {us vs rest : List Word}
    {dot : Word} (h : AnnotatesInside ((us ++ dot :: (vs ++ rest)).map Prod.fst)) (hus : Passed us)
    (hdot : dot.1 = .dot) (hannotated : Annotates annotations vs) : vs = [] := by
  cases vs with
  | nil => rfl
  | cons w vs =>
    have hat : w.1 = .atSign := beq_iff_eq.mp (hannotated.opens w rfl)
    have hfewer := h us.length (by simp) (by simp [hdot]) (by simp [hat])
    rw [List.map_append, List.take_left' (List.length_map _), hus.balanced] at hfewer
    exact absurd hfewer (Nat.lt_irrefl _)

/-- Arguments behind a name are passed over; no others may follow. -/
theorem Spells.scan_args {opened : Bool} {args : Tree (.list .typeArg)} {gs : List Word}
    (h : Spells (.args opened args) gs) (hgs : ∀ w ∈ gs, w.1 ≠ .lparen) (rest : List Word) :
    scan true 0 (gs ++ rest) = scan (!opened) 0 rest := by
  cases h with
  | closed => rfl
  | empty hl hg =>
    rw [List.cons_append, List.singleton_append, scan_cons, if_pos ⟨rfl, hl⟩, scan_greater hg]
    rfl
  | listed hl hg hlist =>
    simp only [List.forall_mem_append, List.forall_mem_cons] at hgs
    rw [List.cons_append, List.append_assoc, scan_cons, if_pos ⟨rfl, hl⟩,
      (hlist.passed hgs.2.1).scan, List.singleton_append, scan_greater hg]
    rfl

/-- The segments of a class type start with a name, and the scanner passes over what follows it. -/
theorem Spells.scan_segments {outer : Tree (.option .type)} {name : String} {diamond : Bool}
    {us : List Word} (h : Spells (.segments outer name diamond) us)
    (hus : ∀ w ∈ us, w.1 ≠ .lparen) (hinside : AnnotatesInside (us.map Prod.fst)) :
    ∃ w more, us = w :: more ∧ w.1 = .identifier ∧
      ∀ rest, scan true 0 (more ++ rest) = scan true 0 rest := by
  generalize hpart : TypePart.segments outer name diamond = part at h
  induction h generalizing outer name diamond with
  | @first w hname => exact ⟨w, [], rfl, hname, fun _ => rfl⟩
  | @fold _ _ _ opened _ us gs vs dot x hbefore hargs hdot hannotated hname ih
  | @nest _ _ _ opened _ _ _ us gs vs dot x hbefore hargs _ hdot hannotated hname ih =>
    have hpassed := (hbefore.passed fun w hw => hus w (by simp [hw])).append
      (hargs.passed fun w hw => hus w (by simp [hw]))
    rw [← List.append_assoc] at hinside
    obtain rfl : vs = [] := hinside.eq_nil hpassed hdot hannotated
    obtain ⟨w, more, rfl, hw, hscan⟩ := ih (fun w hw => hus w (by simp [hw]))
      (by rw [List.append_assoc, List.map_append] at hinside; exact hinside.left) rfl
    refine ⟨w, more ++ (gs ++ [dot, x]), rfl, hw, fun rest => ?_⟩
    rw [List.append_assoc, hscan, List.append_assoc,
      hargs.scan_args (fun w hw => hus w (by simp [hw]))]
    exact scan_segment hdot hname
  | _ => cases hpart

/-! Whole types. -/

theorem Lookahead.suffix_skipDims (ts : List Symbol) : skipDims ts <:+ ts := by
  fun_induction skipDims ts with
  | case1 s t rest _ ih => exact ih.trans ((List.suffix_cons t rest).trans (List.suffix_cons ..))
  | case2 | case3 => exact List.suffix_rfl

theorem Brackets.skipDims {n : Nat} {bs ws : List Word} {x : Word} {ts : List Symbol}
    (h : Brackets n bs) (hx : x.1 = .identifier) (hts : ts.map Symbol.word = bs ++ x :: ws) :
    (Lookahead.skipDims ts).map Symbol.word = x :: ws := by
  induction h generalizing ts with
  | zero =>
    obtain ⟨s, more, rfl, hs, -⟩ := List.map_eq_cons_iff.mp hts
    have hname : s.kind = .identifier := (congrArg Prod.fst hs).trans hx
    rw [skipDims_cons, if_neg (by simp [hname])]
    exact hts
  | succ hl hr _ ih =>
    obtain ⟨s, _, rfl, hs, htail⟩ := List.map_eq_cons_iff.mp hts
    obtain ⟨t, more, rfl, ht, hmore⟩ := List.map_eq_cons_iff.mp htail
    have hopens : s.kind = .lbracket := (congrArg Prod.fst hs).trans hl
    have hcloses : t.kind = .rbracket := (congrArg Prod.fst ht).trans hr
    rw [skipDims_cons, if_pos ⟨hopens, by simp [next, hcloses]⟩]
    exact ih hmore

theorem Brackets.pieces_skipDims {n : Nat} {bs rest : List Word} {x : Word} {ts : List Symbol}
    (h : Brackets n bs) (hx : x.1 = .identifier)
    (hts : pieces (ts.map Symbol.word) = bs ++ x :: rest) :
    pieces ((Lookahead.skipDims ts).map Symbol.word) = x :: rest := by
  have hnone : ∀ w ∈ bs ++ [x], w.1 ≠ .greater :=
    List.forall_mem_append.mpr ⟨fun w hw => by rcases h.kinds w hw with hk | hk <;> simp [hk],
      List.forall_mem_singleton.mpr (by rw [hx]; decide)⟩
  obtain ⟨ws, hwords, hws⟩ := words_of_pieces hnone (hts.trans (List.append_cons ..))
  rw [List.append_assoc, List.singleton_append] at hwords
  rw [h.skipDims hx hwords, pieces_cons, Word.pieces_of_not_fused (by rw [hx]; rfl), hws]
  rfl

/-- In front of what is neither an annotation nor `final` there is nothing to pass over. -/
theorem Lookahead.skipAnnotations_stop {finals : Bool} {s : Symbol} {rest : List Symbol}
    (hat : s.kind ≠ .atSign) (hfinal : s.kind ≠ .finalKw) :
    skipAnnotations finals .outside (s :: rest) = some (s :: rest) := by
  have hcons := skipAnnotations_cons finals false s rest
  simp only [Bool.false_eq_true, false_and, if_false, if_neg (not_and_of_not_left _ hat),
    if_neg (not_and_of_not_right _ hfinal)] at hcons
  exact hcons

/-- The pieces of a type that a variable may have, written without annotations that the scanner
stops at. -/
structure Scannable (us : List Word) : Prop where
  plain : ∀ w ∈ us, w.1 ≠ .lparen
  inside : AnnotatesInside (us.map Prod.fst)
  opens : ∀ w ∈ us.head?, w.1 ≠ .atSign ∧ w.1 ≠ .voidKw

/-- The first word is not split, and nothing is passed over in front of it. -/
theorem Scannable.first {w : Word} {us rest : List Word} {ts : List Symbol}
    (h : Scannable (w :: us)) (hw : w.1 ≠ .greater) (hfinal : w.1 ≠ .finalKw)
    (hts : pieces (ts.map Symbol.word) = w :: (us ++ rest)) :
    ∃ s more, ts = s :: more ∧ s.kind = w.1 ∧ pieces (more.map Symbol.word) = us ++ rest ∧
      skipAnnotations false .outside ts = some (s :: more) := by
  obtain ⟨_, hcut, htail⟩ := words_of_pieces (List.forall_mem_singleton.mpr hw) hts
  obtain ⟨s, more, rfl, rfl, rfl⟩ := List.map_eq_cons_iff.mp hcut
  exact ⟨s, more, rfl, rfl, htail, skipAnnotations_stop (h.opens _ rfl).1 hfinal⟩

/-- Behind a primitive type in front of a name goes on what looks past it. -/
theorem skipType_primitive {w x : Word} {n : Nat} {bs rest : List Word} {ts : List Symbol}
    (hus : Scannable (w :: bs)) (hprimitive : w.1.isPrimitive = true) (hdims : Brackets n bs)
    (hx : x.1 = .identifier) (hts : pieces (ts.map Symbol.word) = w :: (bs ++ x :: rest)) :
    ∃ more, Lookahead.skipType ts = some more ∧ more <:+ ts ∧
      pieces (more.map Symbol.word) = x :: rest := by
  obtain ⟨s, ws, rfl, hkind, htail, hskip⟩ := hus.first
    (fun hk => by rw [hk] at hprimitive; cases hprimitive)
    (fun hk => by rw [hk] at hprimitive; cases hprimitive) hts
  refine ⟨skipDims ws, ?_, (suffix_skipDims ws).trans (List.suffix_cons ..),
    hdims.pieces_skipDims hx htail⟩
  rw [skipType_eq, hskip]
  exact if_pos ⟨by rw [hkind]; exact hprimitive, by rw [hkind]; exact (hus.opens w rfl).2⟩

/-- Behind a class type in front of a name goes on what looks past it. -/
theorem skipType_class {outer : Tree (.option .type)} {name : String} {diamond opened : Bool}
    {args : Tree (.list .typeArg)} {n : Nat} {us gs bs rest : List Word} {x : Word}
    {ts : List Symbol} (hbefore : Spells (.segments outer name diamond) us)
    (hargs : Spells (.args opened args) gs) (hdims : Brackets n bs)
    (hus : Scannable (us ++ (gs ++ bs))) (hx : x.1 = .identifier)
    (hts : pieces (ts.map Symbol.word) = us ++ (gs ++ bs) ++ x :: rest) :
    ∃ more, Lookahead.skipType ts = some more ∧ more <:+ ts ∧
      pieces (more.map Symbol.word) = x :: rest := by
  have hplain := hus.plain
  have hinside := hus.inside
  simp only [List.forall_mem_append] at hplain
  rw [List.map_append] at hinside
  obtain ⟨w, more, rfl, hw, hscan⟩ := hbefore.scan_segments hplain.1 hinside.left
  obtain ⟨s, ws, rfl, hkind, htail, hskip⟩ := @Scannable.first w (more ++ (gs ++ bs)) _ _ hus
    (by rw [hw]; decide) (by rw [hw]; decide) hts
  -- Dimensions or the name stop the scanner.
  obtain ⟨y, ys, hys, hy⟩ : ∃ y ys, bs ++ x :: rest = y :: ys ∧
      (y.1 = .lbracket ∨ y.1 = .identifier) := by
    cases hdims with
    | zero => exact ⟨x, rest, rfl, .inr hx⟩
    | succ hl => exact ⟨_, _, rfl, .inl hl⟩
  have hstops : scan true 0 (pieces (ws.map Symbol.word)) = some (bs ++ x :: rest) := by
    rw [htail, List.append_assoc, hscan, List.append_assoc, hargs.scan_args hplain.2.1, hys]
    exact scan_stop (by rcases hy with hy | hy <;> simp [hy])
      (by rcases hy with hy | hy <;> simp [hy])
  obtain ⟨us, hsegments, hsuffix, hpieces⟩ := skipSegments_of_scan hstops
    (by rw [hys]; exact heads_cons (by rcases hy with hy | hy <;> (rw [hy]; rfl)))
  refine ⟨skipDims us, ?_, (suffix_skipDims us).trans (hsuffix.trans (List.suffix_cons ..)),
    hdims.pieces_skipDims hx hpieces⟩
  have hname : s.kind = .identifier := hkind.trans hw
  rw [skipType_eq, hskip]
  simp [hname, hsegments, Kind.isPrimitive]

/-- A name or the keyword of a type comes first, and behind the type in front of a name goes on what
looks past it. -/
theorem Spells.skipType {type : Tree .type} {us rest : List Word} {x : Word} {ts : List Symbol}
    (h : Spells (.type type) us) (hus : Scannable us) (hx : x.1 = .identifier)
    (hts : pieces (ts.map Symbol.word) = us ++ x :: rest) :
    ∃ more, Lookahead.skipType ts = some more ∧ more <:+ ts ∧
      pieces (more.map Symbol.word) = x :: rest := by
  cases h with
  | @type _ _ _ _ _ _ _ _ us vs hannotated hbare =>
    obtain rfl : vs = [] := by
      cases vs with
      | nil => rfl
      | cons w vs => exact absurd (beq_iff_eq.mp (hannotated.opens w rfl)) (hus.opens w rfl).1
    cases hbare with
    | primitive hprimitive hdims => exact skipType_primitive hus hprimitive hdims hx hts
    | classType hbefore hargs hdims => exact skipType_class hbefore hargs hdims hus hx hts

end JavaSyntax
