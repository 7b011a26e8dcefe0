import Lox.Proofs.Arena.Forest
import Lox.Proofs.Syntax.Parts

/-!
# Trees in an arena

An expression stands in an arena under its number, and its parts do. Statements and functions have no
numbers; the tree of one stands in an arena under some index.

* `Arena.ShowsExpr` and `Arena.ShowsStmt` say that a tree stands in an arena.
* `Arena.ShowsExpr.parts_met` and `Arena.ShowsStmt.parts_met` say that the parts of a tree are met on
  the ways down from it.
-/

namespace Lox

/-! ## Expressions -/

namespace Expr

/-- The index of an expression. -/
def index (e : Expr) : Index :=
  .ofNat e.number

/-- An expression without its parts. -/
def shape : Expr → ExprNode
  | .literal _ value => .literal value
  | .group _ inner => .group inner.index
  | .unary _ op operand => .unary op operand.index
  | .binary _ op left right => .binary op left.index right.index
  | .logical _ op left right => .logical op left.index right.index
  | .var target => .var target.name
  | .assign target value => .assign target.name value.index
  | .call _ callee arguments => .call callee.index (arguments.map index)
  | .get _ object name => .get object.index name
  | .set _ object name value => .set object.index name value.index
  | .this _ => .this
  | .super _ method => .super method

/-- What stands in an arena for an expression itself. -/
def entry (e : Expr) : ExprEntry :=
  ⟨e.shape, e.node.span⟩

end Expr

/-- A tree stands in an arena under an index. -/
structure Arena.ShowsExpr (a : Arena) (i : Index) (e : Expr) : Prop where
  number : i.toNat = e.number
  parts : ∀ part ∈ e.parts, a.expressions[part.number]? = some part.entry

namespace Arena.ShowsExpr

variable {a b : Arena} {i : Index} {e : Expr}

theorem grows (h : a.ShowsExpr i e) (hg : a.Grows b) : b.ShowsExpr i e :=
  ⟨h.number, fun part hpart => hg.expressions _ _ (h.parts part hpart)⟩

theorem index (h : a.ShowsExpr i e) : i = e.index := by
  rw [Expr.index, ← h.number, UInt32.ofNat_toNat]

theorem self (h : a.ShowsExpr i e) : a.expressions[i.toNat]? = some e.entry := by
  rw [h.number]
  exact h.parts e e.mem_parts_self

theorem index_all {is : List Index} {es : List Expr} (h : List.Forall₂ a.ShowsExpr is es) :
    is = es.map Expr.index := by
  induction h with
  | nil => rfl
  | cons hi _ ih => rw [List.map_cons, ← hi.index, ← ih]

theorem parts_all {is : List Index} {es : List Expr} (h : List.Forall₂ a.ShowsExpr is es) :
    ∀ part ∈ Expr.partsAll es, a.expressions[part.number]? = some part.entry := by
  induction h with
  | nil =>
      intro part hpart
      cases hpart
  | cons hi _ ih =>
      intro part hpart
      rcases List.mem_append.mp hpart with hpart | hpart
      · exact hi.parts part hpart
      · exact ih part hpart

end Arena.ShowsExpr

namespace Arena

/-! ## Statements -/

mutual

/-- A statement stands in an arena under an index. -/
def ShowsStmt (a : Arena) (i : Index) : Stmt → Prop
  | .expression value => ∃ x, a.statements[i.toNat]? = some (.expression x) ∧ a.ShowsExpr x value
  | .print value => ∃ x, a.statements[i.toNat]? = some (.print x) ∧ a.ShowsExpr x value
  | .var name initial => ∃ x?, a.statements[i.toNat]? = some (.var name x?) ∧
      Option.Rel a.ShowsExpr x? initial
  | .block body => ∃ js, a.statements[i.toNat]? = some (.block js) ∧ ShowsAll a js body
  | .ifElse condition consequent alternative => ∃ x j k?,
      a.statements[i.toNat]? = some (.ifElse x j k?) ∧ a.ShowsExpr x condition ∧
        ShowsStmt a j consequent ∧ ShowsOption a k? alternative
  | .while condition body => ∃ x j, a.statements[i.toNat]? = some (.while x j) ∧
      a.ShowsExpr x condition ∧ ShowsStmt a j body
  | .function r => ∃ f, a.statements[i.toNat]? = some (.function f) ∧ ShowsRoutine a f r
  | .return keyword value => ∃ x?, a.statements[i.toNat]? = some (.return keyword x?) ∧
      Option.Rel a.ShowsExpr x? value
  | .class name parent methods => ∃ x? fs, a.statements[i.toNat]? = some (.class name x? fs) ∧
      Option.Rel (fun x reference => a.ShowsExpr x (.var reference)) x? parent ∧
        ShowsMethods a fs methods

/-- Statements stand in an arena under indices. -/
def ShowsAll (a : Arena) (is : List Index) : List Stmt → Prop
  | [] => is = []
  | s :: ss => ∃ j js, is = j :: js ∧ ShowsStmt a j s ∧ ShowsAll a js ss

/-- A statement that may be missing stands in an arena. -/
def ShowsOption (a : Arena) (i? : Option Index) : Option Stmt → Prop
  | none => i? = none
  | some s => ∃ j, i? = some j ∧ ShowsStmt a j s

/-- A function stands in an arena under an index. -/
def ShowsRoutine (a : Arena) (f : Index) : Routine Stmt → Prop
  | ⟨name, parameters, body⟩ => ∃ js, a.functions[f.toNat]? = some ⟨name, parameters, js⟩ ∧
      ShowsAll a js body

/-- Methods stand in an arena under indices. -/
def ShowsMethods (a : Arena) (fs : List Index) : List (Routine Stmt) → Prop
  | [] => fs = []
  | r :: rs => ∃ g gs, fs = g :: gs ∧ ShowsRoutine a g r ∧ ShowsMethods a gs rs

end

variable {a b : Arena} {i f : Index} {is js fs : List Index}

theorem relGrows {α : Type} {R S : Index → α → Prop} (h : ∀ x v, R x v → S x v) {x? : Option Index}
    {v? : Option α} (hr : Option.Rel R x? v?) : Option.Rel S x? v? := by
  cases hr with
  | some hr => exact .some (h _ _ hr)
  | none => exact .none

mutual

theorem ShowsStmt.grows (hg : a.Grows b) : (s : Stmt) → ∀ {i}, a.ShowsStmt i s → b.ShowsStmt i s
  | .expression _, _, ⟨x, hnode, hx⟩ => ⟨x, hg.statements _ _ hnode, hx.grows hg⟩
  | .print _, _, ⟨x, hnode, hx⟩ => ⟨x, hg.statements _ _ hnode, hx.grows hg⟩
  | .var _ _, _, ⟨x?, hnode, hx⟩ =>
      ⟨x?, hg.statements _ _ hnode, relGrows (fun _ _ h => h.grows hg) hx⟩
  | .block body, _, ⟨js, hnode, hbody⟩ =>
      ⟨js, hg.statements _ _ hnode, ShowsAll.grows hg body hbody⟩
  | .ifElse _ consequent alternative, _, ⟨x, j, k?, hnode, hx, hj, hk⟩ =>
      ⟨x, j, k?, hg.statements _ _ hnode, hx.grows hg, ShowsStmt.grows hg consequent hj,
        ShowsOption.grows hg alternative hk⟩
  | .while _ body, _, ⟨x, j, hnode, hx, hj⟩ =>
      ⟨x, j, hg.statements _ _ hnode, hx.grows hg, ShowsStmt.grows hg body hj⟩
  | .function r, _, ⟨f, hnode, hf⟩ => ⟨f, hg.statements _ _ hnode, ShowsRoutine.grows hg r hf⟩
  | .return _ _, _, ⟨x?, hnode, hx⟩ =>
      ⟨x?, hg.statements _ _ hnode, relGrows (fun _ _ h => h.grows hg) hx⟩
  | .class _ _ methods, _, ⟨x?, fs, hnode, hx, hfs⟩ =>
      ⟨x?, fs, hg.statements _ _ hnode, relGrows (fun _ _ h => h.grows hg) hx,
        ShowsMethods.grows hg methods hfs⟩

theorem ShowsAll.grows (hg : a.Grows b) : (ss : List Stmt) → ∀ {is}, a.ShowsAll is ss →
    b.ShowsAll is ss
  | [], _, h => h
  | s :: ss, _, ⟨j, js, heq, hj, hjs⟩ =>
      ⟨j, js, heq, ShowsStmt.grows hg s hj, ShowsAll.grows hg ss hjs⟩

theorem ShowsOption.grows (hg : a.Grows b) : (s? : Option Stmt) → ∀ {i?}, a.ShowsOption i? s? →
    b.ShowsOption i? s?
  | none, _, h => h
  | some s, _, ⟨j, heq, hj⟩ => ⟨j, heq, ShowsStmt.grows hg s hj⟩

theorem ShowsRoutine.grows (hg : a.Grows b) : (r : Routine Stmt) → ∀ {f}, a.ShowsRoutine f r →
    b.ShowsRoutine f r
  | ⟨_, _, body⟩, _, ⟨js, hnode, hjs⟩ => ⟨js, hg.functions _ _ hnode, ShowsAll.grows hg body hjs⟩

theorem ShowsMethods.grows (hg : a.Grows b) : (rs : List (Routine Stmt)) → ∀ {fs},
    a.ShowsMethods fs rs → b.ShowsMethods fs rs
  | [], _, h => h
  | r :: rs, _, ⟨g, gs, heq, hr, hrs⟩ =>
      ⟨g, gs, heq, ShowsRoutine.grows hg r hr, ShowsMethods.grows hg rs hrs⟩

end

theorem ShowsMethods.exists_of_mem {rs : List (Routine Stmt)} {r : Routine Stmt}
    (h : a.ShowsMethods fs rs) (hr : r ∈ rs) : ∃ f ∈ fs, a.ShowsRoutine f r := by
  induction rs generalizing fs with
  | nil => cases hr
  | cons first rs ih =>
      rcases h with ⟨g, gs, rfl, hg, hgs⟩
      rcases List.mem_cons.mp hr with rfl | hr
      · exact ⟨g, List.mem_cons_self, hg⟩
      · rcases ih hgs hr with ⟨f, hf, hshows⟩
        exact ⟨f, List.mem_cons_of_mem _ hf, hshows⟩

/-! ## What is met on the ways down from a tree -/

/-- Handles together with those of all that their nodes hold. -/
def Closed (a : Arena) (met : List Handle) : Prop :=
  ∀ h h', h ∈ met → a.Holds h h' → h' ∈ met

variable {met : List Handle}

theorem Closed.expression (hc : a.Closed met) {x y : Index} {entry : ExprEntry}
    (hx : .expression x ∈ met) (hentry : a.expressions[x.toNat]? = some entry)
    (hy : y ∈ entry.node.parts) : .expression y ∈ met := by
  refine hc _ _ hx ⟨entry.node.children, ?_, List.mem_map_of_mem hy⟩
  rw [children?, hentry]
  rfl

theorem Closed.statement (hc : a.Closed met) {h : Handle} {node : StmtNode}
    (hi : .statement i ∈ met) (hnode : a.statements[i.toNat]? = some node)
    (hh : h ∈ node.children) : h ∈ met := by
  refine hc _ _ hi ⟨node.children, ?_, hh⟩
  rw [children?, hnode]
  rfl

theorem Closed.function (hc : a.Closed met) {r : Routine Index} (hf : .function f ∈ met)
    (hnode : a.functions[f.toNat]? = some r) (hi : i ∈ r.body) : .statement i ∈ met := by
  refine hc _ _ hf ⟨r.body.map .statement, ?_, List.mem_map_of_mem hi⟩
  rw [children?, hnode]
  rfl

/-- All parts of expressions stand in an arena that is not too large. -/
structure ShowsParts (a : Arena) (parts : List Expr) : Prop where
  shown : ∀ part ∈ parts, a.expressions[part.number]? = some part.entry
  small : a.expressions.size < UInt32.size

namespace ShowsParts

variable {ps qs : List Expr} {e : Expr}

theorem subset (h : a.ShowsParts qs) (hsub : ps ⊆ qs) : a.ShowsParts ps :=
  ⟨fun part hpart => h.shown part (hsub hpart), h.small⟩

theorem left (h : a.ShowsParts (ps ++ qs)) : a.ShowsParts ps :=
  h.subset (List.subset_append_left _ _)

theorem right (h : a.ShowsParts (ps ++ qs)) : a.ShowsParts qs :=
  h.subset (List.subset_append_right _ _)

theorem entry (h : a.ShowsParts ps) (he : e ∈ ps) :
    a.expressions[e.index.toNat]? = some e.entry := by
  have hshown := h.shown e he
  have hlt : e.number < a.expressions.size := (Array.getElem?_eq_some_iff.mp hshown).1
  rw [Expr.index, toNat_ofNat (Nat.lt_trans hlt h.small)]
  exact hshown

end ShowsParts

/-- What an expression holds is met with it. -/
theorem Closed.part (hc : a.Closed met) {e : Expr} {y : Index} (hs : a.ShowsParts e.parts)
    (he : .expression e.index ∈ met) (hy : y ∈ e.shape.parts) : .expression y ∈ met :=
  hc.expression he (hs.entry e.mem_parts_self) hy

mutual

/-- The parts of an expression are met with it. -/
theorem Closed.exprParts (hc : a.Closed met) : (e : Expr) → a.ShowsParts e.parts →
    .expression e.index ∈ met → ∀ part ∈ e.parts, .expression part.index ∈ met
  | .literal _ _, _, he => List.forall_mem_singleton.mpr he
  | .var _, _, he => List.forall_mem_singleton.mpr he
  | .this _, _, he => List.forall_mem_singleton.mpr he
  | .super _ _, _, he => List.forall_mem_singleton.mpr he
  | .group _ inner, hs, he => by
      have hinner := Closed.part hc hs he List.mem_cons_self
      rw [Expr.parts] at hs ⊢
      exact List.forall_mem_append.mpr
        ⟨Closed.exprParts hc inner hs.left hinner, List.forall_mem_singleton.mpr he⟩
  | .unary _ _ operand, hs, he => by
      have hinner := Closed.part hc hs he List.mem_cons_self
      rw [Expr.parts] at hs ⊢
      exact List.forall_mem_append.mpr
        ⟨Closed.exprParts hc operand hs.left hinner, List.forall_mem_singleton.mpr he⟩
  | .assign _ value, hs, he => by
      have hinner := Closed.part hc hs he List.mem_cons_self
      rw [Expr.parts] at hs ⊢
      exact List.forall_mem_append.mpr
        ⟨Closed.exprParts hc value hs.left hinner, List.forall_mem_singleton.mpr he⟩
  | .get _ object _, hs, he => by
      have hinner := Closed.part hc hs he List.mem_cons_self
      rw [Expr.parts] at hs ⊢
      exact List.forall_mem_append.mpr
        ⟨Closed.exprParts hc object hs.left hinner, List.forall_mem_singleton.mpr he⟩
  | .binary _ _ left right, hs, he => by
      have hfirst := Closed.part hc hs he List.mem_cons_self
      have hsecond := Closed.part hc hs he (List.mem_cons_of_mem _ List.mem_cons_self)
      rw [Expr.parts] at hs ⊢
      exact List.forall_mem_append.mpr ⟨List.forall_mem_append.mpr
        ⟨Closed.exprParts hc left hs.left.left hfirst, Closed.exprParts hc right hs.left.right hsecond⟩,
        List.forall_mem_singleton.mpr he⟩
  | .logical _ _ left right, hs, he => by
      have hfirst := Closed.part hc hs he List.mem_cons_self
      have hsecond := Closed.part hc hs he (List.mem_cons_of_mem _ List.mem_cons_self)
      rw [Expr.parts] at hs ⊢
      exact List.forall_mem_append.mpr ⟨List.forall_mem_append.mpr
        ⟨Closed.exprParts hc left hs.left.left hfirst, Closed.exprParts hc right hs.left.right hsecond⟩,
        List.forall_mem_singleton.mpr he⟩
  | .set _ object _ value, hs, he => by
      have hfirst := Closed.part hc hs he List.mem_cons_self
      have hsecond := Closed.part hc hs he (List.mem_cons_of_mem _ List.mem_cons_self)
      rw [Expr.parts] at hs ⊢
      exact List.forall_mem_append.mpr ⟨List.forall_mem_append.mpr
        -- The parts of the value are listed first, but the object is held first.
        ⟨Closed.exprParts hc value hs.left.left hsecond, Closed.exprParts hc object hs.left.right hfirst⟩,
        List.forall_mem_singleton.mpr he⟩
  | .call _ callee arguments, hs, he => by
      have hcallee := Closed.part hc hs he List.mem_cons_self
      have harguments : ∀ e ∈ arguments, .expression e.index ∈ met := fun e hmem =>
        Closed.part hc hs he (List.mem_cons_of_mem _ (List.mem_map_of_mem hmem))
      rw [Expr.parts] at hs ⊢
      exact List.forall_mem_append.mpr ⟨List.forall_mem_append.mpr
        ⟨Closed.exprParts hc callee hs.left.left hcallee,
          Closed.exprPartsAll hc arguments hs.left.right harguments⟩,
        List.forall_mem_singleton.mpr he⟩

theorem Closed.exprPartsAll (hc : a.Closed met) : (es : List Expr) →
    a.ShowsParts (Expr.partsAll es) → (∀ e ∈ es, .expression e.index ∈ met) →
      ∀ part ∈ Expr.partsAll es, .expression part.index ∈ met
  | [], _, _ => fun _ hpart => nomatch hpart
  | e :: es, hs, hes => by
      rw [Expr.partsAll] at hs ⊢
      rcases List.forall_mem_cons.mp hes with ⟨he, hes⟩
      exact List.forall_mem_append.mpr
        ⟨Closed.exprParts hc e hs.left he, Closed.exprPartsAll hc es hs.right hes⟩

end

/-- The parts of a tree that stands in an arena are met with it. -/
theorem ShowsExpr.parts_met {x : Index} {e : Expr} (h : a.ShowsExpr x e) (hc : a.Closed met)
    (hsmall : a.expressions.size < UInt32.size) (hx : .expression x ∈ met) :
    ∀ part ∈ e.parts, .expression part.index ∈ met := by
  rw [h.index] at hx
  exact Closed.exprParts hc e ⟨h.parts, hsmall⟩ hx

/-- A statement stands in an arena and is met. -/
def ShowsMet (a : Arena) (met : List Handle) (s : Stmt) : Prop :=
  ∃ i, a.ShowsStmt i s ∧ .statement i ∈ met

mutual

/-- The parts of a statement that is met stand in the arena and are met. -/
theorem ShowsStmt.parts_met (hc : a.Closed met) : (s : Stmt) → ∀ {i}, a.ShowsStmt i s →
    .statement i ∈ met → ∀ part ∈ s.parts, a.ShowsMet met part
  | .expression _, i, h, hi => List.forall_mem_singleton.mpr ⟨i, h, hi⟩
  | .print _, i, h, hi => List.forall_mem_singleton.mpr ⟨i, h, hi⟩
  | .var _ _, i, h, hi => List.forall_mem_singleton.mpr ⟨i, h, hi⟩
  | .return _ _, i, h, hi => List.forall_mem_singleton.mpr ⟨i, h, hi⟩
  | .block body, i, h, hi => by
      rcases id h with ⟨js, hnode, hbody⟩
      have hjs : ∀ j ∈ js, .statement j ∈ met := fun j hj =>
        hc.statement hi hnode (List.mem_map_of_mem hj)
      exact List.forall_mem_cons.mpr ⟨⟨i, h, hi⟩, ShowsAll.parts_met hc body hbody hjs⟩
  | .ifElse _ consequent alternative, i, h, hi => by
      rcases id h with ⟨x, j, k?, hnode, -, hconsequent, halternative⟩
      have hj : .statement j ∈ met := hc.statement hi hnode (by simp [StmtNode.children])
      have hk : ∀ k ∈ k?, .statement k ∈ met := fun k hk =>
        hc.statement hi hnode (by simp [StmtNode.children, Option.mem_def.mp hk])
      exact List.forall_mem_cons.mpr ⟨⟨i, h, hi⟩, List.forall_mem_append.mpr
        ⟨ShowsStmt.parts_met hc consequent hconsequent hj,
          ShowsOption.parts_met hc alternative halternative hk⟩⟩
  | .while _ body, i, h, hi => by
      rcases id h with ⟨x, j, hnode, -, hbody⟩
      have hj : .statement j ∈ met := hc.statement hi hnode (by simp [StmtNode.children])
      exact List.forall_mem_cons.mpr ⟨⟨i, h, hi⟩, ShowsStmt.parts_met hc body hbody hj⟩
  | .function r, i, h, hi => by
      rcases id h with ⟨f, hnode, hr⟩
      have hf : .function f ∈ met := hc.statement hi hnode (by simp [StmtNode.children])
      exact List.forall_mem_cons.mpr ⟨⟨i, h, hi⟩, ShowsRoutine.parts_met hc r hr hf⟩
  | .class _ _ methods, i, h, hi => by
      rcases id h with ⟨x?, fs, hnode, -, hmethods⟩
      have hfs : ∀ f ∈ fs, .function f ∈ met := fun f hf =>
        hc.statement hi hnode (by simp [StmtNode.children, hf])
      exact List.forall_mem_cons.mpr ⟨⟨i, h, hi⟩, ShowsMethods.parts_met hc methods hmethods hfs⟩

theorem ShowsAll.parts_met (hc : a.Closed met) : (ss : List Stmt) → ∀ {is}, a.ShowsAll is ss →
    (∀ i ∈ is, .statement i ∈ met) → ∀ part ∈ Stmt.partsAll ss, a.ShowsMet met part
  | [], _, _, _ => fun _ hpart => nomatch hpart
  | s :: ss, _, ⟨j, js, heq, hj, hjs⟩, his => by
      rw [heq] at his
      rcases List.forall_mem_cons.mp his with ⟨hfirst, hothers⟩
      exact List.forall_mem_append.mpr
        ⟨ShowsStmt.parts_met hc s hj hfirst, ShowsAll.parts_met hc ss hjs hothers⟩

theorem ShowsOption.parts_met (hc : a.Closed met) : (s? : Option Stmt) → ∀ {i?},
    a.ShowsOption i? s? → (∀ i ∈ i?, .statement i ∈ met) →
      ∀ part ∈ Stmt.partsOption s?, a.ShowsMet met part
  | none, _, _, _ => fun _ hpart => nomatch hpart
  | some s, _, ⟨j, heq, hj⟩, hi => ShowsStmt.parts_met hc s hj (hi j heq)

theorem ShowsRoutine.parts_met (hc : a.Closed met) : (r : Routine Stmt) → ∀ {f},
    a.ShowsRoutine f r → .function f ∈ met → ∀ part ∈ Stmt.partsRoutine r, a.ShowsMet met part
  | ⟨_, _, body⟩, _, ⟨_, hnode, hjs⟩, hf =>
      ShowsAll.parts_met hc body hjs fun _ hj => hc.function hf hnode hj

theorem ShowsMethods.parts_met (hc : a.Closed met) : (rs : List (Routine Stmt)) → ∀ {fs},
    a.ShowsMethods fs rs → (∀ f ∈ fs, .function f ∈ met) →
      ∀ part ∈ Stmt.partsMethods rs, a.ShowsMet met part
  | [], _, _, _ => fun _ hpart => nomatch hpart
  | r :: rs, _, ⟨g, gs, heq, hr, hrs⟩, hfs => by
      rw [heq] at hfs
      rcases List.forall_mem_cons.mp hfs with ⟨hfirst, hothers⟩
      exact List.forall_mem_append.mpr
        ⟨ShowsRoutine.parts_met hc r hr hfirst, ShowsMethods.parts_met hc rs hrs hothers⟩

end

theorem exists_of_rel {α : Type} {R : Index → α → Prop} {x? : Option Index} {v? : Option α}
    (hr : Option.Rel R x? v?) {v : α} (hv : v ∈ v?.toList) : ∃ x ∈ x?.toList, R x v := by
  cases hr with
  | @some x v' hr =>
      rw [List.mem_singleton.mp hv]
      exact ⟨x, List.mem_cons_self, hr⟩
  | none => cases hv

/-- The expressions that stand in a statement itself are met with it. -/
theorem ShowsStmt.operands_met (hc : a.Closed met) {s : Stmt} (h : a.ShowsStmt i s)
    (hi : .statement i ∈ met) : ∀ e ∈ s.operands, ∃ x, a.ShowsExpr x e ∧ .expression x ∈ met := by
  -- What a node lists of expressions is met with the statement.
  have hmany : ∀ {node : StmtNode} {xs : List Index}, a.statements[i.toNat]? = some node →
      xs.map .expression ⊆ node.children → ∀ x ∈ xs, .expression x ∈ met :=
    fun hnode hsub x hx => hc.statement hi hnode (hsub (List.mem_map_of_mem hx))
  cases s with
  | expression value | print value =>
      rcases h with ⟨x, hnode, hx⟩
      exact List.forall_mem_singleton.mpr ⟨x, hx, hc.statement hi hnode List.mem_cons_self⟩
  | ifElse condition consequent alternative =>
      rcases h with ⟨x, j, k?, hnode, hx, -⟩
      exact List.forall_mem_singleton.mpr ⟨x, hx, hc.statement hi hnode List.mem_cons_self⟩
  | «while» condition body =>
      rcases h with ⟨x, j, hnode, hx, -⟩
      exact List.forall_mem_singleton.mpr ⟨x, hx, hc.statement hi hnode List.mem_cons_self⟩
  | var name value | «return» keyword value =>
      rcases h with ⟨x?, hnode, hx⟩
      intro e he
      rcases exists_of_rel hx he with ⟨x, hmem, hshows⟩
      exact ⟨x, hshows, hmany hnode (List.Subset.refl _) x hmem⟩
  | «class» name parent methods =>
      rcases h with ⟨x?, fs, hnode, hx, -⟩
      intro e he
      rw [Stmt.operands, Option.mem_toList, Option.map_eq_some_iff] at he
      rcases he with ⟨reference, hreference, rfl⟩
      rcases exists_of_rel hx (Option.mem_toList.mpr hreference) with ⟨x, hmem, hshows⟩
      exact ⟨x, hshows, hmany hnode (List.subset_append_left _ _) x hmem⟩
  | block body | function r =>
      exact fun e he => nomatch he

/-- The expressions of statements that stand in an arena and are met are met as well. -/
theorem expressions_met (hc : a.Closed met) (hsmall : a.expressions.size < UInt32.size) {ss : List Stmt}
    (h : ∀ s ∈ ss, a.ShowsMet met s) :
    ∀ e ∈ Stmt.expressions ss, .expression e.index ∈ met := by
  intro e he
  rcases List.mem_flatMap.mp he with ⟨s, hs, he⟩
  rcases List.mem_flatMap.mp he with ⟨operand, hoperand, he⟩
  rcases h s hs with ⟨i, hshows, hi⟩
  rcases hshows.operands_met hc hi operand hoperand with ⟨x, hx, hmet⟩
  exact hx.parts_met hc hsmall hmet e he

end Arena

end Lox
