import JavaSyntax.Proofs.Following

/-!
How the items of a file end. A type declaration ends with its closing brace and an empty one is a
semicolon, so nothing that follows is looked at before the item is complete. A run on a text that
goes on behind its last item therefore reads that item as well.
-/

namespace JavaSyntax

open Grammar
open Movable (move)

section Bind

variable {setting : Setting} {caller : Caller} {inLabels : Bool} {α β : Type}

theorem exec_bind (rule : Rule α) (f : α → Rule β) (s : State) :
    exec setting caller inLabels (rule >>= f) s =
      (exec setting caller inLabels rule s).bind fun out => match out with
        | (.ok value, t) => exec setting caller inLabels (f value) t
        | (.error error, t) => some (.error error, t) := by
  show exec setting caller inLabels (rule.bind f) s = _
  induction rule generalizing s with
  | done value | fail error => rfl
  | look rest ih => exact ih _ s
  | advance n rest ih => exact ih _
  | splitAngle rest ih => exact ih _
  | report error rest ih => exact ih _
  | deprecation doc name rest ih => exact ih _
  | call nonterminal asLabels rest ih =>
    simp only [Rule.bind, exec]
    cases caller nonterminal (inLabels || asLabels) s with
    | none => rfl
    | some out => exact ih out.1 out.2

/-- A sequence that succeeds passes through a state in between. -/
theorem exec_bind_ok {rule : Rule α} {f : α → Rule β} {s t : State} {value : β}
    (h : exec setting caller inLabels (rule >>= f) s = some (.ok value, t)) :
    ∃ a u, exec setting caller inLabels rule s = some (.ok a, u) ∧
      exec setting caller inLabels (f a) u = some (.ok value, t) := by
  rw [exec_bind] at h
  obtain ⟨⟨r, u⟩, hrule, hrest⟩ := Option.bind_eq_some_iff.mp h
  cases r with
  | ok a => exact ⟨a, u, hrule, hrest⟩
  | error error => cases hrest

theorem exec_bind_of_ok {rule : Rule α} {f : α → Rule β} {s u : State} {a : α}
    (h : exec setting caller inLabels rule s = some (.ok a, u)) :
    exec setting caller inLabels (rule >>= f) s = exec setting caller inLabels (f a) u := by
  rw [exec_bind, h]
  rfl

/-- Calling a nonterminal is all that the rule of a call does. -/
theorem exec_call (nonterminal : Nonterminal α) (s : State) :
    exec setting caller inLabels (call nonterminal) s = caller nonterminal inLabels s := by
  unfold call
  simp only [exec, Bool.or_false]
  cases caller nonterminal inLabels s with
  | none => rfl
  | some out =>
    obtain ⟨r, t⟩ := out
    cases r <;> rfl

end Bind

theorem exec_reaches {setting : Setting} {fuel : Nat} {inLabels : Bool} {α : Type} {rule : Rule α}
    {s t : State} {r : Except SyntaxError α}
    (h : exec setting (run setting fuel) inLabels rule s = some (r, t)) : Reaches setting s t :=
  exec_kept (kept_reaches setting s) (run_keeps (kept_reaches setting s) fuel) rule s h (.refl s)

namespace State

/-- The second state is beside the first one, or only the tail is left for it. -/
structure Behind (n : Nat) (tail : List Symbol) (s s' : State) : Prop where
  index : s'.index = s.index + n
  taken : s'.taken = s.taken
  isFresh : s'.IsFresh
  left : Along tail s.ahead s'.ahead ∨ s.ahead = [] ∧ s'.ahead = tail

theorem Beside.behind {n : Nat} {tail : List Symbol} {s s' : State} (h : s.Beside n tail s') :
    s.Behind n tail s' :=
  ⟨h.index, h.taken, h.isFresh, .inl h.along⟩

/-- Taking the symbol that ends an item. -/
theorem Beside.behind_end {n : Nat} {tail : List Symbol} {s s' : State} (h : s.Beside n tail s')
    {x : Symbol} {rest : List Symbol} (hahead : s.ahead = x :: rest) :
    (s.advance 1).Behind n tail (s'.advance 1) := by
  have halong := h.along
  rw [hahead] at halong
  obtain ⟨y, ys, hahead', -, -, -, hrest⟩ := halong.head
  have hindex (u : State) {z : Symbol} {zs : List Symbol} (hu : u.ahead = z :: zs) :
      (u.advance 1).index = u.index + 1 := by
    simp [State.advance, hu]
  refine ⟨?_, rfl, (State.isFresh_advance ..).mpr h.isFresh, ?_⟩
  · rw [hindex s hahead, hindex s' hahead', h.index, Nat.add_right_comm]
  · rw [State.advance_ahead, State.advance_ahead, hahead, hahead']
    rcases hrest with ⟨rfl, rfl, -⟩ | hrest
    · exact .inr ⟨rfl, rfl⟩
    · exact .inl hrest

end State

/-- The last symbol taken in front of a state ends an item. -/
def EndsAt (setting : Setting) (s t : State) : Prop :=
  ∃ u x, Reaches setting s u ∧ u.ahead = x :: t.ahead ∧ (x.kind = .rbrace ∨ x.kind = .semicolon)

theorem EndsAt.from_earlier {setting : Setting} {s s' t : State} (h : EndsAt setting s t)
    (hr : Reaches setting s' s) : EndsAt setting s' t := by
  obtain ⟨u, x, hu, hx⟩ := h
  exact ⟨u, x, hr.trans hu, hx⟩

/-- Where nothing is left there is nothing to end an item. -/
theorem EndsAt.ahead_ne_nil {setting : Setting} {s t : State} (h : EndsAt setting s t) :
    s.ahead ≠ [] := by
  obtain ⟨u, x, hu, hahead, -⟩ := h
  intro hs
  have hnil := hu.kept (kept_ahead_nil setting) hs
  rw [hahead] at hnil
  cases hnil

section Runs

variable {setting setting' : Setting} {n : Nat} {tail : List Symbol} {fuel : Nat} {inLabels : Bool}
  {s s' t : State}

/-- A symbol that must be there is taken, unless something is reported. -/
theorem exec_require {k : Kind} {value : Unit}
    (h : exec setting (run setting fuel) inLabels (require k) s = some (.ok value, t))
    (ht : t.IsFresh) : ∃ x rest, s.ahead = x :: rest ∧ x.kind = k ∧ t = s.advance 1 := by
  change exec setting (run setting fuel) inLabels
    (if Lookahead.next [k] s.ahead = true then advance 1 else
      report ((s.view inLabels).missing (.symbol k))) s = _ at h
  split at h
  · rename_i hnext
    obtain ⟨x, rest, hahead, hx⟩ := SoFar.ahead_of_next hnext
    cases h
    exact ⟨x, rest, hahead, hx, rfl⟩
  · cases h
    exact absurd ht (s.not_isFresh_report _ _)

theorem exec_require_of_next {caller : Caller} {k : Kind}
    (h : Lookahead.next [k] s.ahead = true) :
    exec setting caller inLabels (require k) s = some (.ok (), s.advance 1) := by
  show exec setting caller inLabels (if Lookahead.next [k] s.ahead = true then advance 1 else _) s =
    _
  rw [if_pos h]
  rfl

namespace Closes

variable {mods : Modifiers} {rule rule' : Rule (Tree .typeDecl)} {value : Tree .typeDecl}

/-- A declaration ends at its brace. -/
theorem endsAt (h : Closes n mods rule rule')
    (hrun : exec setting (run setting fuel) inLabels rule s = some (.ok value, t))
    (ht : t.IsFresh) : EndsAt setting s t := by
  induction h generalizing s with
  | close name form members =>
    obtain ⟨_, u, hrequire, hfinish⟩ := exec_bind_ok hrun
    cases hfinish
    obtain ⟨x, rest, hahead, hx, rfl⟩ := exec_require hrequire ht
    refine ⟨s, x, .refl s, ?_, .inl hx⟩
    rw [State.advance_ahead, hahead]
    rfl
  | bind first _ ih =>
    obtain ⟨a, u, hfirst, hrest⟩ := exec_bind_ok hrun
    exact (ih a hrest).from_earlier (exec_reaches hfirst)
  | look _ ih =>
    have hfresh := exec_isFresh hrun ht
    have hrunning : (s.view inLabels).running = true := by simp [State.view, hfresh.1]
    -- The view that the same symbols give `n` tokens further on.
    let further : View := { s.view inLabels with index := s.index + n }
    exact ih (s.view inLabels) further ⟨(Along.refl _).sees, rfl, rfl, hrunning, hrunning, rfl⟩ hrun
  | fault isFault => exact absurd ht (isFault.not_isFresh hrun)

/-- The second run ends the same declaration, whatever is behind it. -/
theorem behind (h : Closes n mods rule rule')
    (hrun : exec setting (run setting fuel) inLabels rule s = some (.ok value, t))
    (ht : t.IsFresh) (hs : s.Beside n tail s') :
    ∃ t', exec setting' (run setting' fuel) inLabels rule' s' = some (.ok (value.move n), t') ∧
      t.Behind n tail t' := by
  induction h generalizing s s' with
  | close name form members =>
    obtain ⟨_, u, hrequire, hfinish⟩ := exec_bind_ok hrun
    cases hfinish
    obtain ⟨x, rest, hahead, hx, rfl⟩ := exec_require hrequire ht
    have hbehind := hs.behind_end hahead
    refine ⟨s'.advance 1, ?_, hbehind⟩
    have hrequired : exec setting' (run setting' fuel) inLabels (require .rbrace) s' =
        some (.ok (), s'.advance 1) :=
      exec_require_of_next (by rw [hs.along.next, hahead]; simp [Lookahead.next, hx])
    rw [exec_bind_of_ok hrequired]
    have hextent : ((s'.advance 1).view inLabels).since (mods.start.move n) =
        (((s.advance 1).view inLabels).since mods.start).move n :=
      View.since_move hbehind.index mods.start
    exact congrArg (fun e => some (Except.ok (Tree.typeDecl (mods.front.move n)
      (mods.annotations.move n) name (form.move n) (members.move n) e), s'.advance 1)) hextent
  | bind first rest ih =>
    obtain ⟨a, u, hfirst, hrest⟩ := exec_bind_ok hrun
    rcases first.endsBeside (run_follows setting setting' n tail fuel) hfirst
      (exec_isFresh hrest ht) hs with hspent | ⟨u', hfirst', hu⟩
    · exact absurd hspent.1 ((rest a).endsAt hrest ht).ahead_ne_nil
    · rw [exec_bind_of_ok hfirst']
      exact ih a hrest hu
  | look _ ih =>
    exact ih _ _ (hs.view (exec_isFresh hrun ht) inLabels) hrun hs
  | fault isFault => exact absurd ht (isFault.not_isFresh hrun)

end Closes

/-- A type declaration that is called ends at its brace, and so it does in the second run. -/
theorem typeDecl_behind (setting' : Setting) {mods : Modifiers} {decl : Tree .typeDecl}
    (hrun : run setting fuel (.typeDecl mods) inLabels s = some (.ok decl, t)) (ht : t.IsFresh)
    (hs : s.Beside n tail s') :
    EndsAt setting s t ∧
      ∃ t', run setting' fuel (.typeDecl (move n mods)) inLabels s' = some (.ok (decl.move n), t') ∧
        t.Behind n tail t' := by
  cases fuel with
  | zero => cases hrun
  | succ fuel =>
    exact ⟨(Closes.typeDecl mods).endsAt (n := n) hrun ht, (Closes.typeDecl mods).behind hrun ht hs⟩

/-- How an item that is a form is read: it is a semicolon, or modifiers and a declaration. -/
inductive FormRead (setting : Setting) (caller : Caller) (inLabels : Bool) (s : State) :
    TopLevel → State → Prop where
  | empty (semicolon : Lookahead.next [.semicolon] s.ahead = true) :
      FormRead setting caller inLabels s (.empty (s.view inLabels).here) (s.advance 1)
  | decl {mods : Modifiers} {m t : State} {decl : Tree .typeDecl}
      (noSemicolon : ¬Lookahead.next [.semicolon] s.ahead = true)
      (noImport : ¬Lookahead.next [.importKw] s.ahead = true)
      (modifiers : exec setting caller inLabels modifiers s = some (.ok mods, m))
      (noPackage : ¬(mods.modifiers.isEmpty && Lookahead.next [.packageKw] m.ahead) = true)
      (noModule : ¬(mods.modifiers.isEmpty && Lookahead.isModule m.ahead) = true)
      (isTypeDecl : Lookahead.isTypeDecl m.ahead = true)
      (called : caller (.typeDecl mods) inLabels m = some (.ok decl, t)) :
      FormRead setting caller inLabels s (.type decl) t

theorem FormRead.of_exec {caller : Caller} {form : TopLevel}
    (h : exec setting caller inLabels item s = some (.ok (.form form), t)) :
    FormRead setting caller inLabels s form t := by
  change exec setting caller inLabels
    (if Lookahead.next [.semicolon] s.ahead = true then _ else
      if Lookahead.next [.importKw] s.ahead = true then _ else _) s = _ at h
  split at h
  · rename_i hsemicolon
    cases h
    exact .empty hsemicolon
  rename_i hsemicolon
  split at h
  · obtain ⟨decl, u, -, hdone⟩ := exec_bind_ok h
    cases hdone
  rename_i himport
  obtain ⟨mods, m, hmods, hrest⟩ := exec_bind_ok h
  change exec setting caller inLabels
    (if (mods.modifiers.isEmpty && Lookahead.next [.packageKw] m.ahead) = true then _ else
      if (mods.modifiers.isEmpty && Lookahead.isModule m.ahead) = true then _ else
        if Lookahead.isTypeDecl m.ahead = true then _ else _) m = _ at hrest
  split at hrest
  · obtain ⟨decl, u, -, hdone⟩ := exec_bind_ok hrest
    cases hdone
  rename_i hpackage
  split at hrest
  · obtain ⟨decl, u, -, hdone⟩ := exec_bind_ok hrest
    cases hdone
  rename_i hmodule
  split at hrest
  · rename_i hdecl
    obtain ⟨decl, u, hcall, hdone⟩ := exec_bind_ok hrest
    cases hdone
    exact .decl hsemicolon himport hmods hpackage hmodule hdecl ((exec_call _ _).symm.trans hcall)
  · cases hrest

theorem FormRead.exec {caller : Caller} {form : TopLevel}
    (h : FormRead setting caller inLabels s form t) :
    exec setting caller inLabels item s = some (.ok (.form form), t) := by
  cases h with
  | empty hsemicolon =>
    show JavaSyntax.exec setting caller inLabels
      (if Lookahead.next [.semicolon] s.ahead = true then _ else _) s = _
    rw [if_pos hsemicolon]
    rfl
  | @decl mods m _ decl hsemicolon himport hmods hpackage hmodule hdecl hcall =>
    show JavaSyntax.exec setting caller inLabels
      (if Lookahead.next [.semicolon] s.ahead = true then _ else
        if Lookahead.next [.importKw] s.ahead = true then _ else _) s = _
    rw [if_neg hsemicolon, if_neg himport, exec_bind_of_ok hmods]
    show JavaSyntax.exec setting caller inLabels
      (if (mods.modifiers.isEmpty && Lookahead.next [.packageKw] m.ahead) = true then _ else
        if (mods.modifiers.isEmpty && Lookahead.isModule m.ahead) = true then _ else
          if Lookahead.isTypeDecl m.ahead = true then _ else _) m = _
    rw [if_neg hpackage, if_neg hmodule, if_pos hdecl,
      exec_bind_of_ok ((exec_call _ _).trans hcall)]
    rfl

/-- An item that is a form ends at a brace or a semicolon, and so it does in the second run. -/
theorem item_behind (setting' : Setting) {form : TopLevel}
    (hrun : run setting fuel .item inLabels s = some (.ok (.form form), t)) (ht : t.IsFresh)
    (hs : s.Beside n tail s') :
    EndsAt setting s t ∧
      ∃ t', run setting' fuel .item inLabels s' = some (.ok (.form (move n form)), t') ∧
        t.Behind n tail t' := by
  have hsees := hs.along.sees
  have hview := hs.view (run_isFresh hrun ht) inLabels
  cases fuel with
  | zero => cases hrun
  | succ fuel =>
    cases FormRead.of_exec hrun with
    | empty hsemicolon =>
      obtain ⟨x, rest, hahead, hx⟩ := SoFar.ahead_of_next hsemicolon
      have hread : FormRead setting' (run setting' fuel) inLabels s'
          (.empty (s'.view inLabels).here) (s'.advance 1) :=
        .empty ((hsees.next _ rfl).trans hsemicolon)
      rw [hview.here] at hread
      refine ⟨⟨s, x, .refl s, ?_, .inr hx⟩, s'.advance 1, hread.exec, hs.behind_end hahead⟩
      rw [State.advance_ahead, hahead]
      rfl
    | @decl mods m _ decl hsemicolon himport hmods hpackage hmodule hdecl hcall =>
      have hm := run_isFresh hcall ht
      rcases Moves.modifiers.endsBeside (run_follows setting setting' n tail fuel) hmods hm hs with
        hspent | ⟨m', hmods', hm'⟩
      · rw [hspent.1] at hdecl
        cases hdecl
      obtain ⟨hends, t', hcall', ht'⟩ := typeDecl_behind setting' hcall ht hm'
      have hsees' := hm'.along.sees
      rw [← hsees.next [.semicolon] rfl] at hsemicolon
      rw [← hsees.next [.importKw] rfl] at himport
      rw [← hsees'.next [.packageKw] rfl] at hpackage
      rw [← hsees'.isModule] at hmodule
      rw [← hsees'.isTypeDecl] at hdecl
      exact ⟨hends.from_earlier (exec_reaches hmods), t',
        (FormRead.decl hsemicolon himport hmods' hpackage hmodule hdecl hcall').exec, ht'⟩

end Runs

end JavaSyntax
