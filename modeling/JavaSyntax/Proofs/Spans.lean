import JavaSyntax.Proofs.Rounds

/-!
The discipline of spans. Every location that a parse hands out is the place of its own offset on a
character boundary, no span runs backwards, a node lies inside the node around it, and the elements
of a list stand one behind the other. This holds of trees with errors in them too, since it only
depends on the states between which a tree was read.
-/

namespace JavaSyntax

/-- The location of a character boundary. -/
structure Source.IsPlace (source : Source) (l : Location) : Prop where
  eq : l = source.locationAt l.offset
  boundary : source.Boundary l.offset
  le_size : l.offset ≤ source.size

/-- A span between two places that does not run backwards. -/
structure Source.IsSpan (source : Source) (span : Span) : Prop where
  start : source.IsPlace span.start
  stop : source.IsPlace span.stop
  forward : span.start.offset ≤ span.stop.offset

namespace Span

/-- One span contains the other. -/
def Within (inner outer : Span) : Prop :=
  outer.start.offset ≤ inner.start.offset ∧ inner.stop.offset ≤ outer.stop.offset

/-- One span ends before the other starts. -/
def Precedes (first second : Span) : Prop :=
  first.stop.offset ≤ second.start.offset

end Span

/-- All of a text. -/
def Source.whole (source : Source) : Span := source.spanOf 0 source.size

namespace Tree

/-- The span of a node, or of what is around it if it has none of its own. -/
def spanIn (layout : Layout) (outer : Span) {c : Category} (tree : Tree c) : Span :=
  (tree.extent?.map layout.span).getD outer

/-- A node has a span inside the one around it, and the elements of a list have spans one behind the
other. -/
structure Spaced (layout : Layout) (outer : Span) {c : Category} (tree : Tree c) : Prop where
  isSpan : ∀ e ∈ tree.extent?, layout.source.IsSpan (layout.span e)
  within : ∀ e ∈ tree.extent?, (layout.span e).Within outer
  elements : (tree.elementExtents.map layout.span).Pairwise Span.Precedes

/-- A tree is spaced at every depth, seen from the span of the node around it. -/
def Disciplined (layout : Layout) (outer : Span) {c : Category} (tree : Tree c) : Prop :=
  tree.Every (fun a {_} t => t.spanIn layout a) (fun a {_} t => t.Spaced layout a) outer

end Tree

/-- The items of a file lie inside it, one behind the other, and what is inside an item is
disciplined too. -/
structure CompilationUnit.Disciplined (layout : Layout) (unit : CompilationUnit) : Prop where
  isSpan : ∀ item ∈ unit.items, layout.source.IsSpan (layout.span item.extent)
  within : ∀ item ∈ unit.items, (layout.span item.extent).Within layout.source.whole
  elements : (unit.items.map fun item => layout.span item.extent).Pairwise Span.Precedes
  parts : ∀ item ∈ unit.items, ∀ p ∈ item.parts, p.2.Disciplined layout (layout.span item.extent)
  directives : ∀ item ∈ unit.items, ∀ d ∈ item.directives,
    layout.source.IsSpan (layout.span d.extent) ∧
      (layout.span d.extent).Within (layout.span item.extent)

/-! Offsets of spans. -/

namespace Source

variable {source : Source} {offset : Nat}

theorem Boundary.offset_eq (h : source.Boundary offset) :
    (source.locationAt offset).offset = offset := by
  rw [source.offset_locationAt]
  exact Nat.min_eq_left h.le_size

theorem Boundary.isPlace (h : source.Boundary offset) :
    source.IsPlace (source.locationAt offset) := by
  refine ⟨?_, ?_, ?_⟩ <;> rw [h.offset_eq]
  · exact h
  · exact h.le_size

theorem Spans.isSpan {span : Span} (h : source.Spans span) : source.IsSpan span := by
  obtain ⟨start, stop, rfl, hvisible, hstop, hle⟩ := h
  have hstart := hvisible.boundary
  refine ⟨hstart.isPlace, hstop.isPlace, ?_⟩
  show (source.locationAt start).offset ≤ (source.locationAt stop).offset
  rw [hstart.offset_eq, hstop.offset_eq]
  exact hle

theorem IsSpan.within_whole {span : Span} (h : source.IsSpan span) : span.Within source.whole := by
  refine ⟨?_, ?_⟩
  · show (source.locationAt 0).offset ≤ _
    rw [(Boundary.zero source).offset_eq]
    exact Nat.zero_le _
  · show _ ≤ (source.locationAt source.size).offset
    rw [(Boundary.size source).offset_eq]
    exact h.stop.le_size

end Source

namespace Layout.Sound

variable {layout : Layout} {a b : Extent}

theorem start_eq (h : layout.Sound a) :
    (layout.span a).start.offset = layout.offset a.start :=
  h.1.boundary.offset_eq

theorem stop_eq (h : layout.Sound a) : (layout.span a).stop.offset = layout.offset a.stop :=
  h.2.1.offset_eq

theorem isSpan (h : layout.Sound a) : layout.source.IsSpan (layout.span a) :=
  h.spans.isSpan

theorem precedes (ha : layout.Sound a) (hb : layout.Sound b)
    (h : layout.offset a.stop ≤ layout.offset b.start) :
    (layout.span a).Precedes (layout.span b) := by
  unfold Span.Precedes
  rw [ha.stop_eq, hb.start_eq]
  exact h

end Layout.Sound

/-! Stretches between states. -/

section Stretches

variable {setting : Setting} {layout : Layout} {s m t : State} {a b e : Extent} {outer : Span}

/-- All that is taken between two states lies inside a span. -/
structure Enclosed (layout : Layout) (outer : Span) (s t : State) : Prop where
  start : outer.start.offset ≤ layout.offset s.mark
  stop : 0 < t.index → layout.offset (.after (t.index - 1)) ≤ outer.stop.offset

namespace Enclosed

theorem narrow {first last : State} (h : Enclosed layout outer s t) (hs : Placed layout s)
    (ht : layout.Tiled) (hfirst : Reaches setting s first) (hway : Reaches setting first last)
    (hlast : Reaches setting last t) : Enclosed layout outer first last where
  start := Nat.le_trans h.start (hfirst.mark_le hs ht)
  stop hpos := by
    have hle := hlast.index_le
    have hplaced := hs.reaches (hfirst.trans hway)
    exact Nat.le_trans (hplaced.after_le_after ht (hplaced.reaches hlast) hpos hle)
      (h.stop (by omega))

/-- What is taken lies inside the span of its own extent. -/
theorem upTo (hs : Placed layout s) (ht : layout.Tiled) (hr : Reaches setting s t)
    (hlt : s.index < t.index) : Enclosed layout (layout.span (s.upTo t)) s t := by
  have hsound := State.sound_upTo hs hr ht
  have heq := State.upTo_eq hs (hs.reaches hr) hlt
  refine ⟨?_, fun _ => ?_⟩
  · rw [hsound.start_eq, heq]
  · rw [hsound.stop_eq, heq]

theorem whole (hs : Placed layout s) (ht : layout.Tiled) (hr : Reaches setting s t) :
    Enclosed layout layout.source.whole s t := by
  refine ⟨?_, fun hpos => ?_⟩
  · show (layout.source.locationAt 0).offset ≤ _
    rw [(Source.Boundary.zero _).offset_eq]
    exact Nat.zero_le _
  · show _ ≤ (layout.source.locationAt layout.source.size).offset
    rw [(Source.Boundary.size _).offset_eq]
    exact ((hs.reaches hr).visible_after ht hpos).boundary.le_size

end Enclosed

namespace Stretch

theorem sound (h : Stretch setting s e t) (hs : Placed layout s) (ht : layout.Tiled) :
    layout.Sound e := by
  obtain ⟨first, last, hfirst, hway, _, rfl, _⟩ := h
  exact State.sound_upTo (hs.reaches hfirst) hway ht

theorem within (h : Stretch setting s e t) (hs : Placed layout s) (ht : layout.Tiled)
    (hin : Enclosed layout outer s t) : (layout.span e).Within outer := by
  have hsound := h.sound hs ht
  obtain ⟨first, last, hfirst, hway, hlast, rfl, hlt⟩ := h
  have hplaced := hs.reaches hfirst
  have hnarrow := hin.narrow hs ht hfirst hway hlast
  have heq := State.upTo_eq hplaced (hplaced.reaches hway) hlt
  unfold Span.Within
  rw [hsound.start_eq, hsound.stop_eq, heq]
  exact ⟨hnarrow.start, hnarrow.stop (by omega)⟩

/-- What is taken later stands behind. -/
theorem precedes (ha : Stretch setting s a m) (hb : Stretch setting m b t) (hs : Placed layout s)
    (ht : layout.Tiled) (hr : Reaches setting s m) :
    (layout.span a).Precedes (layout.span b) := by
  have hm := hs.reaches hr
  refine (ha.sound hs ht).precedes (hb.sound hm ht) ?_
  obtain ⟨first, last, hfirst, hway, hlast, rfl, hlt⟩ := ha
  obtain ⟨first', last', hfirst', hway', _, rfl, hlt'⟩ := hb
  have hplaced := hs.reaches (hfirst.trans hway)
  have hplaced' := hm.reaches hfirst'
  rw [State.upTo_eq (hs.reaches hfirst) hplaced hlt,
    State.upTo_eq hplaced' (hplaced'.reaches hway') hlt']
  exact hplaced.after_le_mark ht hplaced' (by omega)
    (Nat.le_trans hlast.index_le hfirst'.index_le)

end Stretch

/-! Trees between states. -/

namespace Read

variable {ctx : Context} {c : Category} {tree : Tree c}

theorem stretch (h : Read setting ctx s tree t) (he : tree.extent? = Option.some e) :
    Stretch setting s e t := by
  cases h with
  | nil way => cases he
  | cons first rest => cases he
  | none way => cases he
  | some here => cases he
  | node isNode before way after extent fits sits parts =>
    exact ⟨_, _, before, way, after, (extent e he).1, (extent e he).2⟩

theorem elements_stretch (h : Read setting ctx s tree t) :
    ∀ e ∈ tree.elementExtents, Stretch setting s e t := by
  induction h with
  | nil way => nofun
  | cons first rest _ ih =>
    intro e he
    rcases List.mem_append.mp he with he | he
    · exact (first.stretch (Option.mem_toList.mp he)).between (.refl _) rest.reaches
    · exact (ih e he).between first.reaches (.refl _)
  | none way => nofun
  | some here _ => nofun
  | @node _ _ _ _ _ _ tree isNode =>
    have hnone : tree.elementExtents = [] := by cases tree <;> first | rfl | cases isNode
    rw [hnone]
    nofun

theorem elements_precede (h : Read setting ctx s tree t) (hs : Placed layout s)
    (ht : layout.Tiled) : (tree.elementExtents.map layout.span).Pairwise Span.Precedes := by
  induction h with
  | nil way => exact .nil
  | @cons _ s m t _ head tail first rest _ ih =>
    have hrest := ih (hs.reaches first.reaches)
    show ((head.extent?.toList ++ tail.elementExtents).map layout.span).Pairwise _
    rw [List.map_append]
    refine List.pairwise_append.mpr ⟨?_, hrest, ?_⟩
    · cases head.extent? with
      | none => exact .nil
      | some e => exact List.pairwise_singleton _ _
    · intro a ha b hb
      obtain ⟨e, he, rfl⟩ := List.mem_map.mp ha
      obtain ⟨e', he', rfl⟩ := List.mem_map.mp hb
      exact (first.stretch (Option.mem_toList.mp he)).precedes (rest.elements_stretch e' he') hs ht
        first.reaches
  | none way => exact .nil
  | some here _ => exact .nil
  | @node _ _ _ _ _ _ tree isNode =>
    have hnone : tree.elementExtents = [] := by cases tree <;> first | rfl | cases isNode
    rw [hnone]
    exact .nil

theorem spaced (h : Read setting ctx s tree t) (hs : Placed layout s) (ht : layout.Tiled)
    (hin : Enclosed layout outer s t) : tree.Spaced layout outer where
  isSpan _ he := ((h.stretch he).sound hs ht).isSpan
  within _ he := (h.stretch he).within hs ht hin
  elements := h.elements_precede hs ht

/-- What was read between two states is disciplined, seen from a span around all that was taken
there. -/
theorem disciplined (h : Read setting ctx s tree t) (hs : Placed layout s) (ht : layout.Tiled)
    (hin : Enclosed layout outer s t) : tree.Disciplined layout outer := by
  induction h generalizing outer with
  | nil way =>
    exact .mk ((@Read.nil setting .plain _ _ _ way).spaced hs ht hin) fun p hp => by cases hp
  | cons first rest ih ih' =>
    have hm := hs.reaches first.reaches
    refine .mk ((Read.cons first rest).spaced hs ht hin) fun p hp => ?_
    rcases List.mem_cons.mp hp with rfl | hp
    · exact ih hs (hin.narrow hs ht (.refl _) first.reaches rest.reaches)
    · cases List.mem_singleton.mp hp
      exact ih' hm (hin.narrow hs ht first.reaches rest.reaches (.refl _))
  | none way =>
    exact .mk ((@Read.none setting .plain _ _ _ way).spaced hs ht hin) fun p hp => by cases hp
  | some here ih =>
    refine .mk ((Read.some here).spaced hs ht hin) fun p hp => ?_
    cases List.mem_singleton.mp hp
    exact ih hs hin
  | @node _ _ first last _ _ tree isNode before way after extent fits sits parts ih =>
    have hfirst := hs.reaches before
    refine .mk ((Read.node isNode before way after extent fits sits parts).spaced hs ht hin)
      fun p hp => ih p hp hfirst ?_
    unfold Tree.spanIn
    cases he : tree.extent? with
    | none => exact hin.narrow hs ht before way after
    | some e =>
      obtain ⟨rfl, hlt⟩ := extent e he
      exact .upTo hfirst ht way hlt

end Read

/-- An error marker for what lies between two states. -/
theorem disciplined_erroneous (hs : Placed layout s) (ht : layout.Tiled)
    (hr : Reaches setting s t) :
    (Tree.erroneousExpr (s.upTo t)).Disciplined layout layout.source.whole := by
  have hspan := (State.sound_upTo hs hr ht).isSpan
  refine .mk ⟨?_, ?_, .nil⟩ fun p hp => by cases hp
  · rintro e ⟨⟩
    exact hspan
  · rintro e ⟨⟩
    exact hspan.within_whole

theorem WholeRead.disciplined {tree : Tree .expr} (h : WholeRead setting s tree t)
    (hs : Placed layout s) (ht : layout.Tiled) :
    tree.Disciplined layout layout.source.whole := by
  cases h with
  | taken taken way atEnd =>
    have hread := taken.soFar.parts _ List.mem_cons_self .plain trivial
    exact hread.disciplined hs ht (.whole hs ht taken.soFar.reaches)
  | failed before way marker stale =>
    rw [marker]
    exact disciplined_erroneous (hs.reaches before) ht way

/-! Items between states. -/

theorem ItemListed.stretch {item : UnitItem} (h : ItemListed setting s item t) :
    Stretch setting s item.extent t :=
  ⟨s, t, .refl s, h.reaches, .refl t, h.extent, h.began⟩

namespace Listed

variable {items : List UnitItem}

theorem stretch (h : Listed setting s items t) : ∀ item ∈ items,
    Stretch setting s item.extent t := by
  induction h with
  | nil atEnd => nofun
  | cons first rest ih =>
    intro item hitem
    rcases List.mem_cons.mp hitem with rfl | hitem
    · exact first.stretch.between (.refl _) rest.reaches
    · exact (ih item hitem).between first.reaches (.refl _)

theorem precede (h : Listed setting s items t) (hs : Placed layout s) (ht : layout.Tiled) :
    (items.map fun item => layout.span item.extent).Pairwise Span.Precedes := by
  induction h with
  | nil atEnd => exact .nil
  | cons first rest ih =>
    refine List.pairwise_cons.mpr ⟨fun b hb => ?_, ih (hs.reaches first.reaches)⟩
    obtain ⟨item, hitem, rfl⟩ := List.mem_map.mp hb
    exact first.stretch.precedes (rest.stretch item hitem) hs ht first.reaches

theorem inside (h : Listed setting s items t) (hs : Placed layout s) (ht : layout.Tiled) :
    ∀ item ∈ items,
      (∀ p ∈ item.parts, p.2.Disciplined layout (layout.span item.extent)) ∧
      ∀ d ∈ item.directives, layout.source.IsSpan (layout.span d.extent) ∧
        (layout.span d.extent).Within (layout.span item.extent) := by
  induction h with
  | nil atEnd => nofun
  | cons first rest ih =>
    intro item hitem
    rcases List.mem_cons.mp hitem with rfl | hitem
    · have hin := Enclosed.upTo hs ht first.reaches first.began
      rw [← first.extent] at hin
      refine ⟨fun p hp => (first.parts p hp).disciplined hs ht hin, fun d hd => ?_⟩
      have hstretch := first.directives d hd
      exact ⟨(hstretch.sound hs ht).isSpan, hstretch.within hs ht hin⟩
    · exact ih (hs.reaches first.reaches) item hitem

end Listed

end Stretches

namespace Session

theorem unit_disciplined {session : Session} (hs : Fine session.layout session.state) :
    session.unit.1.Disciplined session.layout := by
  have hlisted := unit_listed hs
  have hspan : ∀ item ∈ session.unit.1.items,
      session.layout.source.IsSpan (session.layout.span item.extent) := fun item hitem =>
    ((hlisted.stretch item hitem).sound hs.placed hs.tiled).isSpan
  have hinside := hlisted.inside hs.placed hs.tiled
  exact ⟨hspan, fun item hitem => (hspan item hitem).within_whole,
    hlisted.precede hs.placed hs.tiled, fun item hitem => (hinside item hitem).1,
    fun item hitem => (hinside item hitem).2⟩

/-- An entry point leaves a session fine. -/
theorem enter_fine {α : Type} {session : Session} {entry : Nonterminal α} (spare : α)
    (hw : entry.isWhole = true) (hbegun : entry.Begun session.setting session.state session.state)
    (hreading : ∀ value t, entry.Reading session.setting session.state value t →
      Fine session.layout t) (hs : Fine session.layout session.state) :
    Fine session.layout (session.enter entry spare).2.state :=
  hreading _ _ (run_reads ((session.enter_readsAll spare hw).1 _ (Nat.le_refl _)) hs hbegun)

theorem after_fine {session : Session} (hs : Fine session.layout session.state) (entry : Entry) :
    Fine session.layout (session.after entry).state := by
  cases entry with
  | unit => exact enter_fine _ rfl rfl (fun _ _ h => h) hs
  | expression => exact enter_fine _ rfl rfl (fun _ _ h => h) hs
  | typeUse => exact enter_fine _ rfl rfl (fun _ _ h => h) hs

theorem afterAll_fine {session : Session} (hs : Fine session.layout session.state)
    (entries : List Entry) :
    (session.afterAll entries).layout = session.layout ∧
      Fine session.layout (session.afterAll entries).state := by
  induction entries generalizing session with
  | nil => exact ⟨rfl, hs⟩
  | cons entry entries ih =>
    have hlayout : (session.after entry).layout = session.layout := by
      unfold layout
      rw [after_setting]
    rw [← hlayout]
    exact ih (hlayout ▸ after_fine hs entry)

/-- Wherever entry points lead, the text is laid out as it was at the start. -/
theorem fine_afterAll (settings : Settings) (source : Source) (before : List Entry) :
    let session := (start settings source).afterAll before
    session.layout = (start settings source).layout ∧ Fine session.layout session.state := by
  intro session
  obtain ⟨hlayout, hfine⟩ := afterAll_fine (start_fine settings source) before
  exact ⟨hlayout, hlayout ▸ hfine⟩

/-- Whatever a text, its settings and the entry points called before are: what an entry point logs
lies in the text, and what it returns is disciplined. -/
theorem spans_disciplined (settings : Settings) (source : Source) (before : List Entry) :
    let session := (start settings source).afterAll before
    (∀ entry, ∀ d ∈ (session.after entry).diagnostics, source.IsSpan d.span) ∧
    session.unit.1.Disciplined session.layout ∧
    session.expression.1.Disciplined session.layout source.whole ∧
    session.typeUse.1.Disciplined session.layout source.whole := by
  intro session
  obtain ⟨hlayout, hfine⟩ := afterAll_fine (start_fine settings source) before
  have hsource : session.layout.source = source := congrArg Layout.source hlayout
  have hs : Fine session.layout session.state := by
    rw [hlayout]
    exact hfine
  refine ⟨fun entry d hd => ?_, unit_disciplined hs, ?_, ?_⟩
  · rw [← hsource]
    exact ((after_fine hs entry).logged d hd).spans.isSpan
  · rw [← hsource]
    exact (expression_whole hs).disciplined hs.placed hs.tiled
  · rw [← hsource]
    exact (typeUse_whole hs).disciplined hs.placed hs.tiled

end Session

end JavaSyntax
