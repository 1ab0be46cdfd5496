import JavaSyntax.Tree.Kind

/-!
The trees inside a tree, with what surrounds them. `Tree.parts` are the trees right below one, in
the order of the text, and `Tree.Every` holds if a property does at every depth, given what the
trees above hand down. `Tree.Fits` is the property that a tree of a parse without errors has in its
context.
-/

namespace JavaSyntax

/-- A tree of some category. -/
abbrev Part : Type := (c : Category) × Tree c

namespace Tree

/-- The trees right below, in the order in which they are read. -/
def parts : {c : Category} → Tree c → List Part
  | _, .nil => []
  | _, .cons head tail => [⟨_, head⟩, ⟨_, tail⟩]
  | _, .none => []
  | _, .some value => [⟨_, value⟩]
  | _, .type outer _ args _ annotations _ _ => [⟨_, annotations⟩, ⟨_, outer⟩, ⟨_, args⟩]
  | _, .typeArg type => [⟨_, type⟩]
  | _, .wildcard annotations _ => [⟨_, annotations⟩]
  | _, .wildcardExtends annotations bound _ => [⟨_, annotations⟩, ⟨_, bound⟩]
  | _, .wildcardSuper annotations bound _ => [⟨_, annotations⟩, ⟨_, bound⟩]
  | _, .annot _ elements _ => [⟨_, elements⟩]
  | _, .element _ value => [⟨_, value⟩]
  | _, .typeParam annotations _ bounds _ => [⟨_, annotations⟩, ⟨_, bounds⟩]
  | _, .param _ annotations type _ _ _ => [⟨_, annotations⟩, ⟨_, type⟩]
  | _, .declarator _ _ init _ => [⟨_, init⟩]
  | _, .varDecl _ annotations type names _ => [⟨_, annotations⟩, ⟨_, type⟩, ⟨_, names⟩]
  | _, .arrayInit elements _ => [⟨_, elements⟩]
  | _, .literal _ _ => []
  | _, .ident _ _ => []
  | _, .binary left _ right _ => [⟨_, left⟩, ⟨_, right⟩]
  | _, .unary _ operand _ => [⟨_, operand⟩]
  | _, .assign target _ value _ => [⟨_, target⟩, ⟨_, value⟩]
  | _, .call target typeArgs _ arguments _ => [⟨_, target⟩, ⟨_, typeArgs⟩, ⟨_, arguments⟩]
  | _, .select target _ _ => [⟨_, target⟩]
  | _, .index array index _ => [⟨_, array⟩, ⟨_, index⟩]
  | _, .cast type bounds operand _ => [⟨_, type⟩, ⟨_, bounds⟩, ⟨_, operand⟩]
  | _, .instanceOf operand type _ _ => [⟨_, operand⟩, ⟨_, type⟩]
  | _, .conditional condition yes no _ => [⟨_, condition⟩, ⟨_, yes⟩, ⟨_, no⟩]
  | _, .newObject outer type arguments body _ =>
    [⟨_, outer⟩, ⟨_, type⟩, ⟨_, arguments⟩, ⟨_, body⟩]
  | _, .newArray type sizes _ init _ => [⟨_, type⟩, ⟨_, sizes⟩, ⟨_, init⟩]
  | _, .paren inner _ => [⟨_, inner⟩]
  | _, .arrayValue init => [⟨_, init⟩]
  | _, .lambda params body _ => [⟨_, params⟩, ⟨_, body⟩]
  | _, .methodRef target typeArgs _ _ => [⟨_, target⟩, ⟨_, typeArgs⟩]
  | _, .switchExpr selector cases _ => [⟨_, selector⟩, ⟨_, cases⟩]
  | _, .annotationValue annot => [⟨_, annot⟩]
  | _, .typeExpr type => [⟨_, type⟩]
  | _, .erroneousExpr _ => []
  | _, .lambdaParam _ type _ _ => [⟨_, type⟩]
  | _, .exprBody value => [⟨_, value⟩]
  | _, .blockBody block => [⟨_, block⟩]
  | _, .block statements _ => [⟨_, statements⟩]
  | _, .switchCase labels _ statements _ => [⟨_, labels⟩, ⟨_, statements⟩]
  | _, .standalone expr _ => [⟨_, expr⟩]
  | _, .forVariables decl => [⟨_, decl⟩]
  | _, .forExprs exprs => [⟨_, exprs⟩]
  | _, .resourceVariable _ type _ init _ => [⟨_, type⟩, ⟨_, init⟩]
  | _, .resourceExpr expr _ => [⟨_, expr⟩]
  | _, .catchClause param alternatives block _ => [⟨_, param⟩, ⟨_, alternatives⟩, ⟨_, block⟩]
  | _, .exprStmt expr => [⟨_, expr⟩]
  | _, .localVariables decl => [⟨_, decl⟩]
  | _, .localType decl => [⟨_, decl⟩]
  | _, .ifStmt condition yes no _ => [⟨_, condition⟩, ⟨_, yes⟩, ⟨_, no⟩]
  | _, .whileStmt condition body _ => [⟨_, condition⟩, ⟨_, body⟩]
  | _, .doStmt body condition _ => [⟨_, body⟩, ⟨_, condition⟩]
  | _, .forStmt init condition update body _ =>
    [⟨_, init⟩, ⟨_, condition⟩, ⟨_, update⟩, ⟨_, body⟩]
  | _, .forEachStmt param iterable body _ => [⟨_, param⟩, ⟨_, iterable⟩, ⟨_, body⟩]
  | _, .switchStmt selector cases _ => [⟨_, selector⟩, ⟨_, cases⟩]
  | _, .returnStmt value _ => [⟨_, value⟩]
  | _, .breakStmt _ _ => []
  | _, .continueStmt _ _ => []
  | _, .tryStmt resources body catches final _ =>
    [⟨_, resources⟩, ⟨_, body⟩, ⟨_, catches⟩, ⟨_, final⟩]
  | _, .throwStmt value _ => [⟨_, value⟩]
  | _, .assertStmt condition message _ => [⟨_, condition⟩, ⟨_, message⟩]
  | _, .synchronizedStmt lock body _ => [⟨_, lock⟩, ⟨_, body⟩]
  | _, .labeledStmt _ body _ => [⟨_, body⟩]
  | _, .yieldStmt value _ => [⟨_, value⟩]
  | _, .blockStmt block => [⟨_, block⟩]
  | _, .emptyStmt _ => []
  | _, .erroneousStmt _ => []
  | _, .enumConstant annotations _ arguments body _ =>
    [⟨_, annotations⟩, ⟨_, arguments⟩, ⟨_, body⟩]
  | _, .classForm params parent interfaces permits =>
    [⟨_, params⟩, ⟨_, parent⟩, ⟨_, interfaces⟩, ⟨_, permits⟩]
  | _, .interfaceForm params parents permits => [⟨_, params⟩, ⟨_, parents⟩, ⟨_, permits⟩]
  | _, .enumForm interfaces constants => [⟨_, interfaces⟩, ⟨_, constants⟩]
  | _, .recordForm params components interfaces =>
    [⟨_, params⟩, ⟨_, components⟩, ⟨_, interfaces⟩]
  | _, .annotationForm => []
  | _, .typeDecl _ annotations _ form members _ => [⟨_, annotations⟩, ⟨_, form⟩, ⟨_, members⟩]
  | _, .field decl => [⟨_, decl⟩]
  | _, .method _ annotations typeParams result _ params throws body default _ =>
    [⟨_, annotations⟩, ⟨_, typeParams⟩, ⟨_, result⟩, ⟨_, params⟩, ⟨_, throws⟩, ⟨_, default⟩,
      ⟨_, body⟩]
  | _, .constructor _ annotations typeParams _ params throws body _ _ =>
    [⟨_, annotations⟩, ⟨_, typeParams⟩, ⟨_, params⟩, ⟨_, throws⟩, ⟨_, body⟩]
  | _, .initBlock _ body _ => [⟨_, body⟩]
  | _, .memberType decl => [⟨_, decl⟩]
  | _, .erroneousMember _ => []

/-- The tokens that a node was read from. A node that only wraps another has its extent; lists,
options and the categories that merely sort their parts have none. -/
def extent? : {c : Category} → Tree c → Option Extent
  | .expr, tree => some tree.exprExtent
  | .stmt, tree => some tree.stmtExtent
  | .member, tree => some tree.memberExtent
  | .typeDecl, tree => some tree.declExtent
  | _, .type _ _ _ _ _ _ e => some e
  | _, .typeArg (.type _ _ _ _ _ _ e) => some e
  | _, .wildcard _ e => some e
  | _, .wildcardExtends _ _ e => some e
  | _, .wildcardSuper _ _ e => some e
  | _, .annot _ _ e => some e
  | _, .typeParam _ _ _ e => some e
  | _, .param _ _ _ _ _ e => some e
  | _, .declarator _ _ _ e => some e
  | _, .varDecl _ _ _ _ e => some e
  | _, .arrayInit _ e => some e
  | _, .lambdaParam _ _ _ e => some e
  | _, .block _ e => some e
  | _, .switchCase _ _ _ e => some e
  | _, .standalone _ e => some e
  | _, .resourceVariable _ _ _ _ e => some e
  | _, .resourceExpr _ e => some e
  | _, .catchClause _ _ _ e => some e
  | _, .enumConstant _ _ _ _ e => some e
  | _, _ => none

/-- The extents of the elements of a list, in order; any other tree has no elements. -/
def elementExtents : {c : Category} → Tree c → List Extent
  | _, .cons head tail => head.extent?.toList ++ tail.elementExtents
  | _, _ => []

/-- A property holds of a tree and of all trees inside it. Each tree is seen from what the trees
around it hand down. -/
inductive Every {A : Type} (down : A → {c : Category} → Tree c → A)
    (P : A → {c : Category} → Tree c → Prop) : A → {c : Category} → Tree c → Prop where
  | mk {a : A} {c : Category} {tree : Tree c} (here : P a tree)
      (below : ∀ p ∈ tree.parts, Every down P (down a tree) p.2) : Every down P a tree

/-- What holds of a tree and of all trees inside it may be weakened. -/
theorem Every.mono {A : Type} {down : A → {c : Category} → Tree c → A}
    {P Q : A → {c : Category} → Tree c → Prop} {a : A} {c : Category} {tree : Tree c}
    (h : tree.Every down P a) (hPQ : ∀ a c (tree : Tree c), P a tree → Q a tree) :
    tree.Every down Q a := by
  induction h with
  | mk here _ ih => exact .mk (hPQ _ _ _ here) ih

/-- A property holds of a tree and of all trees inside it, whatever is around them. -/
def Everywhere (P : {c : Category} → Tree c → Prop) {c : Category} (tree : Tree c) : Prop :=
  tree.Every (fun _ {_} _ => ()) (fun _ {_} t => P t) ()

/-- Whether an expression is an assignment, a call, an instance creation, an increment or a
decrement. -/
def standsAlone : Tree .expr → Bool
  | .assign _ _ _ _ | .call _ _ _ _ _ | .newObject _ _ _ _ _ => true
  | .unary op _ _ => op.isStep
  | _ => false

end Tree

/-- Where a tree stands: in the body of a class, which has a name unless it is anonymous or that of
an enum constant, right inside a switch expression, behind an arrow of one, or anywhere else. -/
inductive Context where
  | plain
  | body (owner : Option String)
  | cases
  | arrow
deriving DecidableEq

/-- The context of the parts of a tree. Lists and options hand on their own. -/
def Context.inside : Context → {c : Category} → Tree c → Context
  | ctx, .list _, _ => ctx
  | ctx, .option _, _ => ctx
  | _, _, .typeDecl _ _ name _ _ _ => .body (some name)
  | _, _, .newObject _ _ _ _ _ => .body none
  | _, _, .enumConstant _ _ _ _ _ => .body none
  | _, _, .switchExpr _ _ _ => .cases
  | .cases, _, .switchCase _ true _ _ => .arrow
  | .arrow, _, .exprStmt _ => .arrow
  | _, _, _ => .plain

/-- A tree is no error marker and has what its kind needs in its context: a constructor the name of
the class around it, a `try` something to handle, an array creation a size or initial values, and an
expression in the place of a statement an effect, unless it is the value of a switch. -/
def Tree.Fits (ctx : Context) : {c : Category} → Tree c → Prop
  | _, .erroneousExpr _ => False
  | _, .erroneousStmt _ => False
  | _, .erroneousMember _ => False
  | _, .method _ _ _ _ name _ _ _ _ _ => name ≠ "<error>"
  | _, .constructor _ _ _ name _ _ _ _ _ => ctx = .body (some name)
  | _, .tryStmt resources _ catches final _ =>
    resources.isNil = false ∨ catches.isNil = false ∨ final.toOption.isSome = true
  | _, .newArray _ sizes _ init _ => sizes.isNil = false ∨ init.toOption.isSome = true
  | _, .standalone expr _ => ctx = .arrow ∨ expr.standsAlone = true
  | _, _ => True

end JavaSyntax
