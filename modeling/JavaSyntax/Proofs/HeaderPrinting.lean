import JavaSyntax.Proofs.Phrasing
import JavaSyntax.Tree.Printer

/-!
The words of headers. `SpellsHeader` says with which words a package, imports and a module are
written; names are dotted identifiers, and the words that are reserved only in modules are
identifiers as well. The text that is printed for a header is cut into its words, phrase by phrase.
-/

namespace JavaSyntax

/-- The text is cut into these words in front of any others. -/
def Leads (text : String) (us : List Word) : Prop :=
  ∀ rest vs, CutsTo rest vs → CutsTo (text.toList ++ rest) (us ++ vs)

/-- A word that is reserved only in places. -/
def restricted (text : String) : Word := (.identifier, text)

/-- The words with a meaning of their own in modules. -/
def moduleWords : List String :=
  ["open", "module", "requires", "transitive", "exports", "opens", "to", "uses", "provides", "with"]

namespace Leads

variable {text text' : String} {us vs : List Word} {k : Kind} {c : Char}

theorem empty : Leads "" [] := fun _ _ h => h

theorem append (h : Leads text us) (h' : Leads text' vs) : Leads (text ++ text') (us ++ vs) := by
  intro rest ws hrest
  rw [String.toList_append, List.append_assoc, List.append_assoc]
  exact h _ _ (h' _ _ hrest)

theorem blank (htext : text.toList = [c]) (hc : Lexer.isSkipped c = true) : Leads text [] := by
  intro rest ws hrest
  rw [htext]
  exact .blank hc hrest

theorem newline : Leads "\n" [] := blank rfl (c := '\n') rfl

theorem separator (hk : k ∈ separators) (hchar : k.spelling.toList = [c]) :
    Leads k.spelling [fixed k] := by
  intro rest ws hrest
  rw [hchar]
  exact hrest.separator hk hchar

/-- A name or a reserved word ends in front of a mark. -/
theorem behind {cs : List Char} (h : CutsAs text.toList us) (h' : Leads text' vs)
    (htext : text'.toList = c :: cs) (hc : c ∈ marks) : Leads (text ++ text') (us ++ vs) := by
  intro rest ws hrest
  rw [String.toList_append, List.append_assoc, List.append_assoc]
  refine h _ _ (h' _ _ hrest) ?_
  rw [htext]
  exact follows_mark hc

theorem spaced (h : CutsAs text.toList us) : Leads (text ++ " ") us := by
  have hspace : Leads " " [] := blank rfl (c := ' ') rfl
  rw [← List.append_nil us]
  exact behind h hspace rfl (by decide)

theorem keyword (hk : k ∈ Kind.keywords) : Leads (k.spelling ++ " ") [fixed k] :=
  spaced (.keyword hk)

theorem restricted (h : text ∈ moduleWords) : Leads (text ++ " ") [restricted text] := by
  have hall : ∀ text ∈ moduleWords, IsWordText text ∧ isReserved text = false := by
    decide
  obtain ⟨hword, hfree⟩ := hall text h
  exact spaced (.name hword hfree)

/-- A word and a blank that are there or not. -/
theorem optional (present : Bool) (h : Leads text us) :
    Leads (if present then text else "") (if present then us else []) := by
  cases present with
  | true => exact h
  | false => exact empty

/-- A name in front of a semicolon. -/
theorem ended (h : Leads text us) (hname : CutsAs text'.toList vs) :
    Leads (text ++ text' ++ ";") (us ++ (vs ++ [fixed .semicolon])) := by
  have hsemicolon : Leads ";" [fixed .semicolon] := @separator .semicolon ';' (by decide) rfl
  rw [String.append_assoc]
  exact h.append (behind hname hsemicolon rfl (by decide))

/-- The star of an import in front of the semicolon. -/
theorem wildcard : Leads ".*;" [fixed .dot, fixed .star, fixed .semicolon] := by
  intro rest vs hrest
  have hsemicolon : CutsTo (';' :: rest) (fixed .semicolon :: vs) :=
    hrest.separator (by decide) rfl
  have hstar : Starts (fixed .star) (';' :: rest) :=
    starts_operator (by decide) (follows_cons (by decide)) nofun nofun
  have hdot : Starts (fixed .dot) ('*' :: ';' :: rest) :=
    starts_operator (by decide) (follows_cons (by decide)) nofun fun _ => follows_cons rfl
  exact (hsemicolon.word hstar (follows_cons rfl) rfl).word hdot (follows_cons rfl) rfl

end Leads

/-- Things one after the other, each with its words. -/
inductive Listing {α : Type} (R : α → List Word → Prop) : List α → List Word → Prop where
  | nil : Listing R [] []
  | cons {x : α} {xs : List α} {us vs : List Word} (first : R x us) (more : Listing R xs vs) :
      Listing R (x :: xs) (us ++ vs)

namespace Listing

variable {α : Type} {R S : α → List Word → Prop} {xs : List α} {ws : List Word}

theorem of_forall (h : ∀ x ∈ xs, ∃ us, R x us) : ∃ ws, Listing R xs ws := by
  induction xs with
  | nil => exact ⟨[], .nil⟩
  | cons x xs ih =>
    obtain ⟨hx, hxs⟩ := List.forall_mem_cons.mp h
    obtain ⟨us, hus⟩ := hx
    obtain ⟨vs, hvs⟩ := ih hxs
    exact ⟨us ++ vs, .cons hus hvs⟩

theorem mono (h : Listing R xs ws) (hRS : ∀ x us, R x us → S x us) : Listing S xs ws := by
  induction h with
  | nil => exact .nil
  | cons first _ ih => exact .cons (hRS _ _ first) ih

theorem leads {text : α → String} (h : Listing (fun x us => Leads (text x) us) xs ws) :
    Leads (String.join (xs.map text)) ws := by
  induction h with
  | nil => exact .empty
  | cons first _ ih =>
    rw [List.map_cons, String.join_cons]
    exact first.append ih

end Listing

/-! Names. -/

/-- Identifiers with dots between them. -/
def IsDottedName (name : String) : Prop :=
  ∃ names : List String, names ≠ [] ∧
    (∀ n ∈ names, IsWordText n ∧ isReserved n = false) ∧ name = ".".intercalate names

/-- A name with its words. -/
structure Named (name : String) (ws : List Word) : Prop where
  dotted : ∃ names, Dotted names ws ∧ name = ".".intercalate names
  cut : CutsAs name.toList ws

theorem opens_intercalate (separator first : String) (others : List String) :
    ∃ cs, (separator.intercalate (first :: others)).toList = first.toList ++ cs := by
  cases others with
  | nil => exact ⟨[], by rw [String.intercalate_singleton, List.append_nil]⟩
  | cons next others =>
    refine ⟨separator.toList ++ (separator.intercalate (next :: others)).toList, ?_⟩
    rw [String.intercalate_cons_cons, String.toList_append, String.toList_append,
      List.append_assoc]

theorem IsDottedName.named {name : String} (h : IsDottedName name) : ∃ ws, Named name ws := by
  obtain ⟨names, hne, hnames, rfl⟩ := h
  suffices hcut : ∃ ws, Dotted names ws ∧ CutsAs (".".intercalate names).toList ws by
    obtain ⟨ws, hdotted, hcut⟩ := hcut
    exact ⟨ws, ⟨names, hdotted, rfl⟩, hcut⟩
  induction names with
  | nil => exact absurd rfl hne
  | cons n more ih =>
    obtain ⟨⟨hword, hfree⟩, hmore⟩ := List.forall_mem_cons.mp hnames
    cases more with
    | nil =>
      rw [String.intercalate_singleton]
      exact ⟨[(.identifier, n)], .one (w := (.identifier, n)) rfl, .name hword hfree⟩
    | cons m others =>
      obtain ⟨ws, hdotted, hcut⟩ := ih (List.cons_ne_nil _ _) hmore
      obtain ⟨cs, hcs⟩ := opens_intercalate "." m others
      rw [hcs] at hcut
      refine ⟨(.identifier, n) :: fixed .dot :: ws,
        .more (w := (.identifier, n)) rfl rfl hdotted, ?_⟩
      rw [String.intercalate_cons_cons, String.toList_append, String.toList_append, hcs,
        List.append_assoc]
      exact (CutsAs.name hword hfree).append (hcut.dotted (hmore m List.mem_cons_self).1)
        (follows_mark (by decide))

/-- Names with commas between them. -/
inductive Commas : List String → List Word → Prop where
  | one {name : String} {ws : List Word} (named : Named name ws) : Commas [name] ws
  | more {name next : String} {names : List String} {us vs : List Word} (named : Named name us)
      (others : Commas (next :: names) vs) :
      Commas (name :: next :: names) (us ++ fixed .comma :: vs)

theorem Commas.of_forall {first : String} {names : List String} (hfirst : IsDottedName first)
    (h : ∀ n ∈ names, IsDottedName n) : ∃ ws, Commas (first :: names) ws := by
  induction names generalizing first with
  | nil =>
    obtain ⟨ws, hws⟩ := hfirst.named
    exact ⟨ws, .one hws⟩
  | cons next names ih =>
    obtain ⟨hnext, hnames⟩ := List.forall_mem_cons.mp h
    obtain ⟨us, hus⟩ := hfirst.named
    obtain ⟨vs, hvs⟩ := ih hnext hnames
    exact ⟨_, .more hus hvs⟩

theorem Commas.cut {names : List String} {ws : List Word} (h : Commas names ws) :
    CutsAs (Printer.commas names).toList ws := by
  unfold Printer.commas
  induction h with
  | one hnamed =>
    rw [String.intercalate_singleton]
    exact hnamed.cut
  | more hnamed _ ih =>
    have hcomma : CutsAs (',' :: ' ' :: _) (fixed .comma :: _) :=
      (CutsAs.separator (k := .comma) (by decide) rfl).append (.blank rfl ih)
        (follows_mark (by decide))
    rw [String.intercalate_cons_cons, String.toList_append, String.toList_append,
      List.append_assoc]
    exact hnamed.cut.append hcomma (follows_mark (by decide))

/-! Directives. -/

/-- The modules that a package is open to, if they are listed. -/
inductive SpellsTargets : List String → List Word → Prop where
  | none : SpellsTargets [] []
  | some {names : List String} {ws : List Word} (listed : Commas names ws) :
      SpellsTargets names (restricted "to" :: ws)

inductive SpellsDirective : Directive → List Word → Prop where
  | requires {isTransitive isStatic : Bool} {name : String} {extent : Extent} {ws : List Word}
      (named : Named name ws) :
      SpellsDirective (.requires isTransitive isStatic name extent)
        ([restricted "requires"] ++ (if isTransitive then [restricted "transitive"] else []) ++
          (if isStatic then [fixed .staticKw] else []) ++ (ws ++ [fixed .semicolon]))
  | exports {package : String} {targets : List String} {extent : Extent} {us vs : List Word}
      (named : Named package us) (listed : SpellsTargets targets vs) :
      SpellsDirective (.exports package targets extent)
        (restricted "exports" :: (us ++ (vs ++ [fixed .semicolon])))
  | opens {package : String} {targets : List String} {extent : Extent} {us vs : List Word}
      (named : Named package us) (listed : SpellsTargets targets vs) :
      SpellsDirective (.opens package targets extent)
        (restricted "opens" :: (us ++ (vs ++ [fixed .semicolon])))
  | uses {service : String} {extent : Extent} {ws : List Word} (named : Named service ws) :
      SpellsDirective (.uses service extent)
        ([restricted "uses"] ++ (ws ++ [fixed .semicolon]))
  | provides {service : String} {implementations : List String} {extent : Extent}
      {us vs : List Word} (named : Named service us) (listed : Commas implementations vs) :
      SpellsDirective (.provides service implementations extent)
        ([restricted "provides"] ++ (us ++ (restricted "with" :: (vs ++ [fixed .semicolon]))))

/-- All names of the directive are dotted identifiers, and it provides something if it provides. -/
def Directive.IsNamed : Directive → Prop
  | .requires _ _ name _ => IsDottedName name
  | .exports package targets _ | .opens package targets _ =>
    IsDottedName package ∧ ∀ name ∈ targets, IsDottedName name
  | .uses service _ => IsDottedName service
  | .provides service implementations _ =>
    IsDottedName service ∧ implementations ≠ [] ∧ ∀ name ∈ implementations, IsDottedName name

theorem leads_semicolon : Leads ";" [fixed .semicolon] :=
  @Leads.separator .semicolon ';' (by decide) rfl

/-- A name, a word, and names with commas between them. -/
theorem leads_listed {text name word : String} {names : List String} {ws us vs : List Word}
    (h : Leads text ws) (hnamed : Named name us) (hword : word ∈ moduleWords)
    (hlisted : Commas names vs) :
    Leads (text ++ name ++ (" " ++ word ++ " " ++ Printer.commas names) ++ ";")
      (ws ++ (us ++ (restricted word :: (vs ++ [fixed .semicolon])))) := by
  have hspace : Leads (" " ++ (word ++ " ")) [restricted word] :=
    (Leads.blank rfl (c := ' ') rfl).append (.restricted hword)
  have hmark : (" " ++ (word ++ " ") ++ (Printer.commas names ++ ";")).toList =
      ' ' :: (word ++ " " ++ (Printer.commas names ++ ";")).toList := by
    rw [String.append_assoc, String.toList_append]
    rfl
  have hclause := hspace.append (Leads.behind hlisted.cut leads_semicolon rfl (by decide))
  have hall := h.append (Leads.behind hnamed.cut hclause hmark (by decide))
  simp only [String.append_assoc] at hall ⊢
  exact hall

/-- A package and the clause with its targets. -/
theorem leads_clause {text package : String} {targets : List String} {ws us : List Word}
    (h : Leads text ws) (hnamed : Named package us)
    (htargets : ∀ name ∈ targets, IsDottedName name) :
    ∃ vs, SpellsTargets targets vs ∧
      Leads (text ++ package ++ Printer.clause "to" targets ++ ";")
        (ws ++ (us ++ (vs ++ [fixed .semicolon]))) := by
  cases targets with
  | nil =>
    refine ⟨[], .none, ?_⟩
    show Leads (text ++ package ++ "" ++ ";") _
    rw [String.append_empty]
    exact h.ended hnamed.cut
  | cons first others =>
    obtain ⟨hfirst, hothers⟩ := List.forall_mem_cons.mp htargets
    obtain ⟨vs, hvs⟩ := Commas.of_forall hfirst hothers
    exact ⟨_, .some hvs, leads_listed h hnamed (by decide) hvs⟩

theorem Directive.IsNamed.spells {d : Directive} (h : d.IsNamed) :
    ∃ ws, SpellsDirective d ws ∧ Leads d.text ws := by
  cases d with
  | requires isTransitive isStatic name =>
    obtain ⟨ws, hws⟩ := IsDottedName.named h
    refine ⟨_, .requires hws, ?_⟩
    have hrequires : Leads "requires " [restricted "requires"] :=
      @Leads.restricted "requires" (by decide)
    have htransitive := Leads.optional isTransitive (@Leads.restricted "transitive" (by decide))
    have hstatic := Leads.optional isStatic (@Leads.keyword .staticKw (by decide))
    exact ((hrequires.append htransitive).append hstatic).ended hws.cut
  | exports package targets =>
    obtain ⟨hpackage, htargets⟩ := h
    obtain ⟨us, hus⟩ := hpackage.named
    obtain ⟨vs, hvs, hleads⟩ := leads_clause
      (@Leads.restricted "exports" (by decide)) hus htargets
    exact ⟨_, .exports hus hvs, hleads⟩
  | opens package targets =>
    obtain ⟨hpackage, htargets⟩ := h
    obtain ⟨us, hus⟩ := hpackage.named
    obtain ⟨vs, hvs, hleads⟩ := leads_clause
      (@Leads.restricted "opens" (by decide)) hus htargets
    exact ⟨_, .opens hus hvs, hleads⟩
  | uses service =>
    obtain ⟨ws, hws⟩ := IsDottedName.named h
    exact ⟨_, .uses hws, (@Leads.restricted "uses" (by decide)).ended hws.cut⟩
  | provides service implementations =>
    obtain ⟨hservice, hne, himplementations⟩ := h
    cases implementations with
    | nil => exact absurd rfl hne
    | cons first others =>
      obtain ⟨hfirst, hothers⟩ := List.forall_mem_cons.mp himplementations
      obtain ⟨us, hus⟩ := hservice.named
      obtain ⟨vs, hvs⟩ := Commas.of_forall hfirst hothers
      have hwith : (" with " : String) = " " ++ "with" ++ " " := rfl
      refine ⟨_, .provides hus hvs, ?_⟩
      show Leads ("provides " ++ service ++ " with " ++ Printer.commas (first :: others) ++ ";") _
      rw [hwith, @String.append_assoc ("provides " ++ service)]
      exact leads_listed (@Leads.restricted "provides" (by decide)) hus (by decide) hvs

/-! Clauses. -/

inductive SpellsPackage : PackageDecl → List Word → Prop where
  | named {name : String} {extent : Extent} {ws : List Word} (named : Named name ws) :
      SpellsPackage ⟨.nil, name, extent⟩ ([fixed .packageKw] ++ (ws ++ [fixed .semicolon]))

inductive SpellsImport : ImportDecl → List Word → Prop where
  | named {name : String} {isStatic : Bool} {extent : Extent} {ws : List Word}
      (named : Named name ws) :
      SpellsImport ⟨name, isStatic, false, extent⟩
        ([fixed .importKw] ++ (if isStatic then [fixed .staticKw] else []) ++
          (ws ++ [fixed .semicolon]))
  | wildcard {name : String} {isStatic : Bool} {extent : Extent} {ws : List Word}
      (named : Named name ws) :
      SpellsImport ⟨name, isStatic, true, extent⟩
        ([fixed .importKw] ++ (if isStatic then [fixed .staticKw] else []) ++
          (ws ++ [fixed .dot, fixed .star, fixed .semicolon]))

inductive SpellsModule : ModuleDecl → List Word → Prop where
  | named {name : String} {isOpen : Bool} {directives : List Directive} {extent : Extent}
      {us vs : List Word} (named : Named name us) (listed : Listing SpellsDirective directives vs) :
      SpellsModule ⟨.nil, isOpen, name, directives, extent⟩
        ((if isOpen then [restricted "open"] else []) ++ [restricted "module"] ++
          (us ++ (fixed .lbrace :: (vs ++ [fixed .rbrace]))))

/-- The words of a file without type declarations. -/
inductive SpellsHeader : CompilationUnit → List Word → Prop where
  | clauses {package : Option PackageDecl} {imports : List ImportDecl} {module : Option ModuleDecl}
      {us vs ws : List Word} (before : Listing SpellsPackage package.toList us)
      (between : Listing SpellsImport imports vs) (behind : Listing SpellsModule module.toList ws) :
      SpellsHeader ⟨package, imports, module, []⟩ (us ++ (vs ++ ws))

theorem leads_package : Leads "package " [fixed .packageKw] := by
  have htext : Kind.packageKw.spelling ++ " " = "package " := rfl
  have h := @Leads.keyword .packageKw (by decide)
  rwa [htext] at h

theorem leads_static : Leads "static " [fixed .staticKw] := by
  have htext : Kind.staticKw.spelling ++ " " = "static " := rfl
  have h := @Leads.keyword .staticKw (by decide)
  rwa [htext] at h

theorem leads_import : Leads "import " [fixed .importKw] := by
  have htext : Kind.importKw.spelling ++ " " = "import " := rfl
  have h := @Leads.keyword .importKw (by decide)
  rwa [htext] at h

theorem spells_package {p : PackageDecl} (h : p.annotations = .nil ∧ IsDottedName p.name) :
    ∃ ws, SpellsPackage p ws ∧
      Leads (Printer.each "\n" (p.annotations.print 0) ++ p.text ++ "\n\n") ws := by
  obtain ⟨annotations, name, extent⟩ := p
  obtain ⟨hnone, hname⟩ := h
  obtain rfl : annotations = .nil := hnone
  obtain ⟨ws, hws⟩ := IsDottedName.named hname
  refine ⟨_, .named hws, ?_⟩
  have hlines : ("\n\n" : String) = "\n" ++ "\n" := rfl
  show Leads ("" ++ ("package " ++ name ++ ";") ++ "\n\n") _
  rw [String.empty_append, hlines, ← List.append_nil (_ ++ _)]
  exact (leads_package.ended hws.cut).append (Leads.newline.append .newline)

theorem spells_import {i : ImportDecl} (h : IsDottedName i.name) :
    ∃ ws, SpellsImport i ws ∧ Leads (i.text ++ "\n") ws := by
  obtain ⟨name, isStatic, isWildcard, extent⟩ := i
  obtain ⟨ws, hws⟩ := IsDottedName.named h
  have himport : Leads (if isStatic then "import static " else "import ")
      ([fixed .importKw] ++ (if isStatic then [fixed .staticKw] else [])) := by
    have htext : ("import static " : String) = "import " ++ "static " := rfl
    cases isStatic with
    | false => exact leads_import
    | true =>
      rw [if_pos rfl, if_pos rfl, htext]
      exact leads_import.append leads_static
  cases isWildcard with
  | false =>
    have htext := (himport.ended hws.cut).append .newline
    rw [List.append_nil] at htext
    exact ⟨_, .named hws, htext⟩
  | true =>
    have hline := himport.append (Leads.behind hws.cut .wildcard rfl (by decide))
    rw [← String.append_assoc] at hline
    have htext := hline.append .newline
    rw [List.append_nil] at htext
    exact ⟨_, .wildcard hws, htext⟩

/-- Lines at a level. -/
theorem Listing.leads_lines {α : Type} {text : α → String} {xs : List α} {ws : List Word}
    (h : Listing (fun x us => Leads (text x) us) xs ws) (pad : Nat) :
    Leads (Printer.lines pad (xs.map text)) ws := by
  have hpad (n : Nat) : Leads (Printer.blanks n) [] := by
    intro rest vs hrest
    unfold Printer.blanks
    rw [String.toList_ofList]
    induction n with
    | zero => exact hrest
    | succ n ih => exact .blank rfl ih
  unfold Printer.lines
  rw [List.map_map]
  refine Listing.leads (h.mono fun x us hx => ?_)
  have hline := ((hpad pad).append hx).append .newline
  rwa [List.append_nil] at hline

theorem leads_brace : Leads " \x7b\n" [fixed .lbrace] := by
  have htext : (" \x7b\n" : String) = " " ++ Kind.lbrace.spelling ++ "\n" := rfl
  have hspace : Leads " " [] := .blank rfl (c := ' ') rfl
  rw [htext]
  exact (hspace.append (@Leads.separator .lbrace '\x7b' (by decide) rfl)).append .newline

theorem spells_module {m : ModuleDecl} (h : m.annotations = .nil ∧ IsDottedName m.name)
    (hdirectives : ∀ d ∈ m.directives, d.IsNamed) :
    ∃ ws, SpellsModule m ws ∧ Leads (m.print ++ "\n") ws := by
  obtain ⟨annotations, isOpen, name, directives, extent⟩ := m
  obtain ⟨hnone, hname⟩ := h
  obtain rfl : annotations = .nil := hnone
  obtain ⟨us, hus⟩ := IsDottedName.named hname
  obtain ⟨vs, hvs⟩ := Listing.of_forall fun d hd => (hdirectives d hd).spells
  refine ⟨_, .named hus (hvs.mono fun d ws hd => hd.1), ?_⟩
  have hopen : Leads (if isOpen then "open " else "")
      (if isOpen then [restricted "open"] else []) :=
    .optional isOpen (@Leads.restricted "open" (by decide))
  have hmodule : Leads "module " [restricted "module"] := @Leads.restricted "module" (by decide)
  have hclose : Leads "\x7d" [fixed .rbrace] := @Leads.separator .rbrace '\x7d' (by decide) rfl
  have hbody := (hvs.mono fun d ws hd => hd.2).leads_lines 2
  have hhead := (hopen.append hmodule).append (.behind hus.cut leads_brace rfl (by decide))
  have hall := hhead.append ((hbody.append hclose).append .newline)
  show Leads ("" ++ (if isOpen then "open " else "") ++ "module " ++ name ++ " \x7b\n" ++
    Printer.lines 2 (directives.map Directive.text) ++ "\x7d" ++ "\n") _
  simp only [String.append_assoc, String.empty_append, List.append_assoc, List.append_nil,
    List.cons_append, List.nil_append] at hall ⊢
  exact hall

/-! The whole header. -/

/-- The names of the file are dotted identifiers, its package and module have no annotations, and
it declares no types. -/
structure CompilationUnit.IsHeader (unit : CompilationUnit) : Prop where
  package : ∀ p ∈ unit.package, p.annotations = .nil ∧ IsDottedName p.name
  imports : ∀ i ∈ unit.imports, IsDottedName i.name
  module : ∀ m ∈ unit.module, m.annotations = .nil ∧ IsDottedName m.name
  directives : ∀ m ∈ unit.module, ∀ d ∈ m.directives, d.IsNamed
  forms : unit.forms = []

section Unangled

/-- No closing angle bracket is among the words, so the pieces they are cut into are themselves. -/
def Unangled (ws : List Word) : Prop :=
  ∀ w ∈ ws, w.1 ≠ .greater

variable {us vs ws : List Word} {w : Word}

@[simp] theorem unangled_nil : Unangled [] := List.forall_mem_nil _

@[simp] theorem unangled_cons : Unangled (w :: ws) ↔ w.1 ≠ .greater ∧ Unangled ws :=
  List.forall_mem_cons

@[simp] theorem unangled_append : Unangled (us ++ vs) ↔ Unangled us ∧ Unangled vs :=
  List.forall_mem_append

theorem Named.unangled {name : String} (h : Named name ws) : Unangled ws := by
  obtain ⟨names, hdotted, -⟩ := h.dotted
  intro w hw
  rcases hdotted.kinds w hw with hk | hk <;> simp [hk]

theorem Commas.unangled {names : List String} (h : Commas names ws) : Unangled ws := by
  induction h with
  | one hnamed => exact hnamed.unangled
  | more hnamed _ ih => simp [hnamed.unangled, ih, fixed]

theorem Listing.unangled {α : Type} {R : α → List Word → Prop} {xs : List α}
    (h : Listing R xs ws) (hR : ∀ x us, R x us → Unangled us) : Unangled ws := by
  induction h with
  | nil => exact unangled_nil
  | cons first _ ih => exact unangled_append.mpr ⟨hR _ _ first, ih⟩

theorem SpellsTargets.unangled {targets : List String} (h : SpellsTargets targets ws) :
    Unangled ws := by
  cases h with
  | none => exact unangled_nil
  | some hlisted => simp [hlisted.unangled, restricted]

theorem SpellsDirective.unangled {d : Directive} (h : SpellsDirective d ws) : Unangled ws := by
  cases h with
  | @requires isTransitive isStatic _ _ _ hnamed =>
    cases isTransitive <;> cases isStatic <;> simp [hnamed.unangled, restricted, fixed]
  | exports hnamed hlisted | opens hnamed hlisted | provides hnamed hlisted =>
    simp [hnamed.unangled, hlisted.unangled, restricted, fixed]
  | uses hnamed => simp [hnamed.unangled, restricted, fixed]

theorem SpellsHeader.unangled {unit : CompilationUnit} (h : SpellsHeader unit ws) :
    Unangled ws := by
  have hpackage (p : PackageDecl) (us : List Word) (h : SpellsPackage p us) : Unangled us := by
    cases h with
    | named hnamed => simp [hnamed.unangled, fixed]
  have himport (i : ImportDecl) (us : List Word) (h : SpellsImport i us) : Unangled us := by
    cases h with
    | @named _ isStatic _ _ hnamed | @wildcard _ isStatic _ _ hnamed =>
      cases isStatic <;> simp [hnamed.unangled, fixed]
  have hmodule (m : ModuleDecl) (us : List Word) (h : SpellsModule m us) : Unangled us := by
    cases h with
    | @named _ isOpen _ _ _ _ hnamed hlisted =>
      have hdirectives := hlisted.unangled fun _ _ => SpellsDirective.unangled
      cases isOpen <;> simp [hnamed.unangled, hdirectives, restricted, fixed]
  cases h with
  | clauses hbefore hbetween hbehind =>
    simp [hbefore.unangled hpackage, hbetween.unangled himport, hbehind.unangled hmodule]

end Unangled

/-- A part that is there or not. -/
theorem Listing.of_option {α : Type} {R : α → List Word → Prop} {text : α → String}
    {part : Option α} (h : ∀ x ∈ part, ∃ us, R x us ∧ Leads (text x) us) :
    ∃ us, Listing R part.toList us ∧ Leads (part.elim "" text) us := by
  cases part with
  | none => exact ⟨[], .nil, .empty⟩
  | some x =>
    obtain ⟨us, hus, hleads⟩ := h x rfl
    exact ⟨us ++ [], .cons hus .nil, by rwa [List.append_nil]⟩

/-- A header is printed as words that spell it. -/
theorem CompilationUnit.IsHeader.spells {unit : CompilationUnit} (h : unit.IsHeader) :
    ∃ ws, SpellsHeader unit ws ∧ Cuts unit.print.toList ws := by
  obtain ⟨package, imports, module, forms⟩ := unit
  obtain rfl : forms = [] := h.forms
  obtain ⟨us, hus, hpackage⟩ := Listing.of_option fun p hp => spells_package (h.package p hp)
  obtain ⟨vs, hvs⟩ := Listing.of_forall fun i hi => spells_import (h.imports i hi)
  obtain ⟨ws, hws, hmodule⟩ :=
    Listing.of_option fun m hm => spells_module (h.module m hm) (h.directives m hm)
  have hheader : SpellsHeader ⟨package, imports, module, []⟩ (us ++ (vs ++ ws)) :=
    .clauses hus (hvs.mono fun _ _ hi => hi.1) hws
  have himports : Leads (Printer.each "\n" (imports.map ImportDecl.text)) vs := by
    unfold Printer.each
    rw [List.map_map]
    exact Listing.leads (hvs.mono fun _ _ hi => hi.2)
  have hline : Leads (if imports.isEmpty then "" else "\n") [] := by
    split
    · exact .empty
    · exact .newline
  have hprint : Leads (CompilationUnit.print ⟨package, imports, module, []⟩)
      (us ++ (vs ++ ws)) := by
    have hall := (((hpackage.append himports).append hline).append hmodule).append .empty
    simp only [List.append_nil, List.append_assoc] at hall
    exact hall
  obtain ⟨words, hcuts, hpieces⟩ := hprint [] [] .nil 0
  obtain ⟨others, rfl, hothers⟩ := words_of_pieces hheader.unangled hpieces
  refine ⟨_, hheader, ?_⟩
  rwa [pieces_eq_nil hothers, List.append_nil, List.append_nil] at hcuts

end JavaSyntax
