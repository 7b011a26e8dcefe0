import Lox.Proofs.Grammar.Program
import Lox.Proofs.Token.Tiling
import Mathlib.Data.List.Perm.Subperm

/-!
# Every declared name stands at a place of its own

The names that a program declares are written by different tokens. Reading uses each token once, and
no two tokens stand at one place, so no two declarations are written alike at one place.

Main statement: `Reading.nodup_binders_of_ofText`.
-/

namespace Lox

namespace Grammar

open Stmt

/-- The tokens write these names, each at a token of its own. -/
def Writes (ts : List Token) (names : List Ident) : Prop :=
  names.Subperm (ts.map Token.ident)

namespace Writes

variable {ts us : List Token} {token : Token} {names others : List Ident}

theorem nothing : Writes ts [] :=
  List.nil_subperm

theorem append (hts : Writes ts names) (hus : Writes us others) :
    Writes (ts ++ us) (names ++ others) := by
  rw [Writes, List.map_append]
  exact List.Subperm.append hts hus

theorem skip (h : Writes ts names) (token : Token) : Writes (token :: ts) names :=
  List.Subperm.trans h (List.sublist_cons_self _ _).subperm

theorem cons (h : Writes ts names) (token : Token) : Writes (token :: ts) (token.ident :: names) :=
  (List.subperm_cons token.ident).mpr h

/-- Names may be written in front of others. -/
theorem behind (h : Writes us names) (ts : List Token) : Writes (ts ++ us) names := by
  have happend : Writes (ts ++ us) ([] ++ names) := Writes.nothing.append h
  exact happend

theorem before (h : Writes ts names) (us : List Token) : Writes (ts ++ us) names := by
  have happend : Writes (ts ++ us) (names ++ []) := h.append .nothing
  rwa [List.append_nil] at happend

theorem perm (h : Writes ts names) (hperm : names.Perm others) : Writes ts others :=
  hperm.symm.subperm.trans h

end Writes

theorem names_written : ∀ {ts : List Token} {names : List Ident}, Names ts names → Writes ts names
  | _, _, @Names.one name _ => Writes.nothing.cons name
  | _, _, @Names.more name comma _ _ _ _ hnames => ((names_written hnames).skip comma).cons name

theorem parameters_written {ts : List Token} {names : List Ident} (h : Parameters ts names) :
    Writes ts names := by
  cases h with
  | none => exact .nothing
  | some hnames _ => exact names_written hnames

theorem variable_written {ts : List Token} {s : Stmt} (h : Variable ts s) :
    Writes ts (bindersAll s.parts) := by
  cases h with
  | @intro word name semicolon ts initial =>
      exact (Writes.nothing.cons name).skip word

theorem expressionStatement_written {ts : List Token} {s : Stmt} (h : ExpressionStatement ts s) :
    Writes ts (bindersAll s.parts) := by
  cases h
  exact .nothing

theorem initializer_written {ts : List Token} {initializer : Option Stmt}
    (h : Initializer ts initializer) : Writes ts (bindersAll (partsOption initializer)) := by
  cases h with
  | none _ => exact .nothing
  | «variable» hs => exact variable_written hs
  | expression hs => exact expressionStatement_written hs

theorem clauses_written {ts : List Token} {clauses : Parse.ForClauses} (h : Clauses ts clauses) :
    Writes ts (bindersAll (partsOption clauses.initializer)) := by
  cases h with
  | intro hinitializer _ _ _ _ => exact (initializer_written hinitializer).before _

/-- What stands for a `for` loop declares what its initializer and its body declare. -/
theorem bindersAll_forTree (initializer : Option Stmt) (condition : Expr) (increment : Option Expr)
    (body : Stmt) : bindersAll (forTree initializer condition increment body).parts =
      bindersAll (partsOption initializer) ++ bindersAll body.parts := by
  cases initializer <;> cases increment <;>
    simp [forTree, parts, partsAll, partsOption, bindersAll, binders]

theorem bindersAll_ifElse (condition : Expr) (consequent : Stmt) (alternative : Option Stmt) :
    bindersAll (Stmt.ifElse condition consequent alternative).parts =
      bindersAll consequent.parts ++ bindersAll (partsOption alternative) :=
  bindersAll_append _ _

theorem bindersAll_class (name : Ident) (parent : Option Reference) (members : List FunctionDecl) :
    bindersAll (Stmt.class name parent members).parts =
      name :: (members.flatMap Routine.parameters ++ bindersAll (partsMethods members)) :=
  rfl

mutual

theorem statement_written {nearest : Prop} : ∀ {isOpen : Bool} {ts : List Token} {s : Stmt},
    Statement nearest isOpen ts s → Writes ts (bindersAll s.parts)
  | _, _, _, .expression hs => expressionStatement_written hs
  | _, _, _, .print _ _ _ => .nothing
  | _, _, _, .return _ _ _ => .nothing
  | _, _, _, .block _ hbody => (body_written hbody).skip _
  | _, _, _, .while _ _ _ _ hbody => ((((statement_written hbody).skip _).behind _).skip _).skip _
  | _, _, _, .for _ _ hclauses _ hbody => by
      rw [bindersAll_forTree]
      exact (((clauses_written hclauses).append (statement_written hbody)).skip _).skip _
  | _, _, _, .ifThen _ _ _ _ hbody => by
      rw [bindersAll_ifElse, partsOption, bindersAll_nil, List.append_nil]
      exact ((((statement_written hbody).skip _).behind _).skip _).skip _
  | _, _, _, .ifElse _ _ _ _ hbody _ _ halt => by
      rw [bindersAll_ifElse]
      exact (((((statement_written hbody).append ((statement_written halt).skip _)).skip _).behind
        _).skip _).skip _

theorem body_written {nearest : Prop} : ∀ {ts : List Token} {body : List Stmt},
    Body nearest ts body → Writes ts (bindersAll (partsAll body))
  | _, _, .intro hbody _ => (declarations_written hbody).before _

theorem function_written {nearest : Prop} : ∀ {ts : List Token} {decl : FunctionDecl},
    Function nearest ts decl →
      Writes ts (decl.name :: (decl.parameters ++ bindersAll (partsRoutine decl)))
  | _, _, .intro _ _ hparameters _ _ hbody =>
      (((parameters_written hparameters).append (((body_written hbody).skip _).skip _)).skip _).cons _

theorem methods_written {nearest : Prop} : ∀ {ts : List Token} {members : List FunctionDecl},
    Methods nearest ts members →
      Writes ts (members.flatMap Routine.parameters ++ bindersAll (partsMethods members))
  | _, _, .nil => .nothing
  | _, _, @Methods.cons _ _ _ method members hmethod hmethods => by
      -- In the text the body of a method stands before the parameters of the next one.
      have hfirst : Writes _ (method.parameters ++ bindersAll (partsRoutine method)) :=
        (List.sublist_cons_self _ _).subperm.trans (function_written hmethod)
      refine (hfirst.append (methods_written hmethods)).perm ?_
      rw [List.flatMap_cons, partsMethods, bindersAll_append, List.append_assoc, List.append_assoc]
      refine .append_left _ ?_
      rw [← List.append_assoc, ← List.append_assoc]
      exact List.perm_append_comm.append_right _

theorem declaration_written {nearest : Prop} : ∀ {ts : List Token} {s : Stmt},
    Declaration nearest ts s → Writes ts (bindersAll s.parts)
  | _, _, .class _ _ _ _ hmethods _ => by
      rw [bindersAll_class]
      exact (((((methods_written hmethods).before _).skip _).behind _).cons _).skip _
  | _, _, .function _ hdecl => (function_written hdecl).skip _
  | _, _, .variable hs => variable_written hs
  | _, _, .statement hs => statement_written hs

/-- The names that declarations declare are written by different tokens. -/
theorem declarations_written {nearest : Prop} : ∀ {ts : List Token} {ss : List Stmt},
    Declarations nearest ts ss → Writes ts (bindersAll (partsAll ss))
  | _, _, .nil => .nothing
  | _, _, .cons hs hss => by
      rw [partsAll, bindersAll_append]
      exact (declaration_written hs).append (declarations_written hss)

end

end Grammar

/-! ## Places -/

/-- No two tokens are written alike at one place. -/
theorem nodup_idents_of_tokenizes {offset : Nat} {text : List Char} {tokens : List Token}
    (h : Tokenizes offset text tokens) : (tokens.map Token.ident).Nodup := by
  rcases h with ⟨stop, hscan⟩
  have hpairwise := (tiles_scan offset text).pairwise
  rw [hscan, List.pairwise_append, List.pairwise_map] at hpairwise
  refine List.pairwise_map.mpr (hpairwise.1.imp ?_)
  intro a b hbefore heq
  have hspan : a.span = b.span := congrArg Ident.span heq
  have hlt : a.span.start < b.span.start := hbefore.1
  rw [hspan] at hlt
  exact absurd hlt (Nat.lt_irrefl _)

/-- No two declarations of a program that was read declare the same name at one place. -/
theorem Reading.nodup_binders_of_ofText {offset nextId : Nat} {text : List Char} {ss : List Stmt}
    (h : (Reading.ofText offset nextId text).outcome = .ok ss) :
    (Stmt.bindersAll (Stmt.partsAll ss)).Nodup := by
  rcases derives_of_ofText_ok h with ⟨tokens, htokens, hderives⟩
  rcases Grammar.declarations_written hderives with ⟨names, hperm, hsub⟩
  exact hperm.nodup_iff.mp (hsub.nodup (nodup_idents_of_tokenizes htokens))

end Lox
